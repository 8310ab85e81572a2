import AtomicStyles.Text.Identifier

/-!
# Upper and lower case

The case mappings of Unicode, with the characters that map to several. In lower case a
capital sigma at the end of a word has a form of its own: it stands after a cased letter
and not before one, characters that case ignores being skipped.

## Main definitions

* `Text.upper`, `Text.lower` — a text in upper and in lower case.
-/

namespace AtomicStyles
namespace Text

/-- Every `step`-th code point from `first` to `last`, mapped to one that is `shift` away. -/
structure CaseRun where
  first : Nat
  last : Nat
  step : Nat
  shift : Int
deriving Repr

/-- The small letters beyond ASCII that stand right after their capitals, in stretches in which
every second character is one. -/
def alternatingRuns : List CaseRun := (ranges [
  "(3l)(1b)352f2(19)254321315161752141213321317121212f2h21213(13)3h815149(81)331(2p)n8121(2t)x9",
  "(1h)2d2(2n)(4m2)1(ae)(45)b(2n)(hw)1(258)1656121a(2r)8341(nyl)(19)jr(3r)d3(1p)a32941433jbf432fq",
  "1"]).map fun (first, last) => ⟨first, last, 2, -1⟩

/-- Runs without gaps, each given by the gap before it, its size and its shift, from the code point
`n` on. -/
def runsFrom (n : Nat) : List (Nat × Nat × Int) → List CaseRun
  | [] => []
  | (gap, size, shift) :: rest =>
    ⟨n + gap, n + gap + size - 1, 1, shift⟩ :: runsFrom (n + gap + size) rest

/-- The mapping to upper case of single characters beyond ASCII. -/
def upperRuns : List CaseRun := alternatingRuns ++ runsFrom 128 [
  (53, 1, 743), (42, 23, -32), (1, 7, -32), (0, 1, 121), (49, 1, -232), (77, 1, -300), (0, 1, 195),
  (20, 1, 97), (4, 1, 163), (0, 1, 42561), (2, 1, 130), (32, 1, 56), (6, 1, -2), (2, 1, -2),
  (2, 1, -2), (16, 1, -79), (21, 1, -2), (75, 2, 10815), (15, 1, 10783), (0, 1, 10780),
  (0, 1, 10782), (0, 1, -210), (0, 1, -206), (1, 2, -205), (1, 1, -202), (1, 1, -203),
  (0, 1, 42319), (3, 1, -205), (0, 1, 42315), (1, 1, -207), (0, 1, 42343), (0, 1, 42280),
  (0, 1, 42308), (1, 1, -209), (0, 1, -211), (0, 1, 42308), (0, 1, 10743), (0, 1, 42305),
  (2, 1, -211), (1, 1, 10749), (0, 1, -213), (2, 1, -214), (7, 1, 10727), (2, 1, -218),
  (1, 1, 42307), (0, 1, -218), (3, 1, 42282), (0, 1, -218), (0, 1, -69), (0, 2, -217), (0, 1, -71),
  (5, 1, -219), (10, 1, 42261), (0, 1, 42258), (166, 1, 84), (53, 3, 130), (46, 1, -38),
  (0, 3, -37), (1, 17, -32), (0, 1, -31), (0, 9, -32), (0, 1, -64), (0, 2, -63), (1, 1, -62),
  (0, 1, -57), (3, 1, -47), (0, 1, -54), (0, 1, -8), (24, 1, -86), (0, 1, -80), (0, 1, 7),
  (0, 1, -116), (1, 1, -96), (58, 32, -32), (0, 16, -80), (111, 1, -15), (145, 38, -48),
  (2889, 43, 3008), (2, 3, 3008), (760, 6, -8), (2178, 1, -6254), (0, 1, -6253), (0, 1, -6244),
  (0, 2, -6242), (0, 1, -6243), (0, 1, -6236), (0, 1, -6181), (0, 1, 35266), (240, 1, 35332),
  (3, 1, 3814), (16, 1, 35384), (268, 1, -59), (100, 8, 8), (8, 6, 8), (10, 8, 8), (8, 8, 8),
  (8, 6, 8), (11, 1, 8), (1, 1, 8), (1, 1, 8), (1, 1, 8), (8, 8, 8), (8, 2, 74), (0, 4, 86),
  (0, 2, 100), (0, 2, 128), (0, 2, 112), (0, 2, 126), (50, 2, 8), (12, 1, -7205), (17, 2, 8),
  (14, 2, 8), (3, 1, 7), (360, 1, -28), (33, 16, -16), (848, 26, -26), (1862, 48, -48),
  (5, 1, -10795), (0, 1, -10792), (153, 38, -7264), (1, 1, -7264), (5, 1, -7264), (31334, 1, 48),
  (958, 1, -928), (28, 80, -38864), (21377, 26, -32), (1229, 40, -40), (136, 36, -40),
  (155, 11, -39), (1, 15, -39), (1, 7, -39), (1, 2, -39), (1795, 51, -64), (125, 22, -32),
  (2874, 32, -32), (21888, 32, -32), (59, 25, -27), (31310, 34, -34)]

/-- A row of Greek letters, eight small ones and their capitals, with an iota that is written after
the capital in upper case. -/
def iotaRow (first capital : Nat) : List (Nat × List Nat) :=
  (List.range 16).map fun k => (first + k, [capital + k % 8, 0x399])

/-- The characters that become several in upper case. -/
def upperSeveral : List (Nat × List Nat) := [
  (0xdf, [0x53, 0x53]), (0x149, [0x2bc, 0x4e]), (0x1f0, [0x4a, 0x30c]),
  (0x390, [0x399, 0x308, 0x301]), (0x3b0, [0x3a5, 0x308, 0x301]), (0x587, [0x535, 0x552]),
  (0x1e96, [0x48, 0x331]), (0x1e97, [0x54, 0x308]), (0x1e98, [0x57, 0x30a]),
  (0x1e99, [0x59, 0x30a]), (0x1e9a, [0x41, 0x2be]), (0x1f50, [0x3a5, 0x313]),
  (0x1f52, [0x3a5, 0x313, 0x300]), (0x1f54, [0x3a5, 0x313, 0x301]),
  (0x1f56, [0x3a5, 0x313, 0x342])] ++
  iotaRow 0x1f80 0x1f08 ++ iotaRow 0x1f90 0x1f28 ++ iotaRow 0x1fa0 0x1f68 ++ [
  (0x1fb2, [0x1fba, 0x399]), (0x1fb3, [0x391, 0x399]), (0x1fb4, [0x386, 0x399]),
  (0x1fb6, [0x391, 0x342]), (0x1fb7, [0x391, 0x342, 0x399]), (0x1fbc, [0x391, 0x399]),
  (0x1fc2, [0x1fca, 0x399]), (0x1fc3, [0x397, 0x399]), (0x1fc4, [0x389, 0x399]),
  (0x1fc6, [0x397, 0x342]), (0x1fc7, [0x397, 0x342, 0x399]), (0x1fcc, [0x397, 0x399]),
  (0x1fd2, [0x399, 0x308, 0x300]), (0x1fd3, [0x399, 0x308, 0x301]), (0x1fd6, [0x399, 0x342]),
  (0x1fd7, [0x399, 0x308, 0x342]), (0x1fe2, [0x3a5, 0x308, 0x300]), (0x1fe3, [0x3a5, 0x308, 0x301]),
  (0x1fe4, [0x3a1, 0x313]), (0x1fe6, [0x3a5, 0x342]), (0x1fe7, [0x3a5, 0x308, 0x342]),
  (0x1ff2, [0x1ffa, 0x399]), (0x1ff3, [0x3a9, 0x399]), (0x1ff4, [0x38f, 0x399]),
  (0x1ff6, [0x3a9, 0x342]), (0x1ff7, [0x3a9, 0x342, 0x399]), (0x1ffc, [0x3a9, 0x399]),
  (0xfb00, [0x46, 0x46]), (0xfb01, [0x46, 0x49]), (0xfb02, [0x46, 0x4c]),
  (0xfb03, [0x46, 0x46, 0x49]), (0xfb04, [0x46, 0x46, 0x4c]), (0xfb05, [0x53, 0x54]),
  (0xfb06, [0x53, 0x54]), (0xfb13, [0x544, 0x546]), (0xfb14, [0x544, 0x535]),
  (0xfb15, [0x544, 0x53b]), (0xfb16, [0x54e, 0x546]), (0xfb17, [0x544, 0x53d])]

/-- The run that takes back what a run does. -/
def CaseRun.inverse (r : CaseRun) : CaseRun :=
  ⟨(r.first + r.shift).toNat, (r.last + r.shift).toNat, r.step, -r.shift⟩

/-- The mapping to lower case of single characters beyond ASCII. With a few exceptions, which come
first, it takes back the mapping to upper case. -/
def lowerRuns : List CaseRun :=
  runsFrom 128 [(324, 1, 2), (0, 1, 1), (1, 1, 2), (0, 1, 1), (1, 1, 2), (0, 1, 1), (37, 1, 2),
    (0, 1, 1), (422, 1, 32), (2, 1, 32), (6, 1, 32), (80, 1, -60), (6825, 1, -7615), (233, 8, -8),
    (8, 8, -8), (8, 8, -8), (12, 1, -9), (15, 1, -9), (47, 1, -9), (297, 1, -7517), (3, 1, -8383),
    (0, 1, -8262), (34078, 1, 1)] ++
    upperRuns.map CaseRun.inverse

/-- The characters that become several in lower case. -/
def lowerSeveral : List (Nat × List Nat) := [
  (0x130, [0x69, 0x307])]

/-- The letters beyond ASCII that have case. -/
def casedRanges : List (Nat × Nat) := ranges [
  "(16)1a1415n1v1(5f)144(5s)2z72u5(2o)1(16)42224116113111k1(2b)1(3v)8(4m)1(12)9(15)(26v)(12)11512",
  "(17)14(io)(2e)26(1oi)b5(17)23(1s)(5c)(1s)(7q)262(12)26281111111v2(1h)1711331734264d5317(38)1d1",
  "gd(2t)1412a1135611111141641245541hw32(mp)(1g)(1ee)(6d)6432c(12)1151(nwy)(1a)iu(3o)(2u)341(25)k",
  "613(mt)(17)1e6(28)(fnk)7c5(sp)q6q(x1)(28)(2o)(10)4(10)(38)b1f17121b1f1712(cj)1231(16)19(xx)",
  "(1f)d(1f)(2l)mam(26y)(1s)(gv4)(1s)wp2p(jzg)(2d)1(1z)122122241c11171(1t)1428171s141511371(9g)2p",
  "1p1v1p1v1p1v1p1v1p18(1f8)a1k66(79)(1q)(1oy)(1w)(1kc)q6q6q"]

/-- The characters beyond ASCII that case ignores. -/
def ignoredRanges : List (Nat × Nat) := ranges [
  "(14)141114122(dz)(5c)42419211(6z)7(5r)151(1d)(19)11121211(18)1b6ab11z1alg1(2t)81a14x111ur(2j)b",
  "(1m)b4121oo(17)3(18)17259(15)(1m)(1j)111484137a2d1f1(1m)14481k2q122(1l)142422331u231b2(1l)1451",
  "241k2m611(1m)121148172b2u1(1p)1c1(1e)131(1j)113531472b2t1(1m)1216152k2s2(1l)24481k2t1(20)17311",
  "(2i)127b9(2q)1299117(21)2r11111(1j)e15125b1(10)91(2u)4161222p243g4d12261f1(2m)1(gw)3(qa)3t2u2u",
  "2(1s)217812b3151(19)5(1f)1(1t)2y1(3a)3429163(63)221(1m)1171111286a21(13)18(1a)2ck4(1c)1151151",
  "(14)9c2w42213(1k)1123113(1m)822(1s)6(2a)31d17416132(1e)(1r)d1y(2t)(cd)113b3d3d3d2c582a12125",
  "(1d)51a11d1gd(1f)x(2a3)2(35)3(3h)1f1(2o)w(1b)1(d1)1(10)43551(2l)6(2l)3(lxy)1(yq)6(7i)1(2q)41a1",
  "1s4(28)2ey(26)1n3(2u)432813141p251(47)2qid1(12)8pb(1a)3(1c)12422h1l2(1u)62222c181z1b1(1f)11322",
  "5211r1e25211(2s)593(3d)12141(fn4)1(43)h(fx)g31cgy121(4p)17161b1z111(1b)1(19)2(1v)1l3(e9)1(6a)1",
  "(45)5(sl)61(16)19(g6)31254(14)341(4l)2(fx)4(12)1q511(8r)2o1(1g)6(1y)b(1d)4(3f)1(1i)f(15)122a3",
  "(1d)4222141a1(1e)3(10)518(1q)1c2(1g)9a421(2n)321126121(4d)138l2(1l)231(11)735(1y)6d11111e2(2d)",
  "82311n1(2c)6114212(6m)46212r2(2d)82112(2y)1112611(2t)1112415(77)912(74)21141(40)42241wa(14)624",
  "819623(1a)d12(5i)11311(5l)71611(2a)m271212(3e)631121711(20)23111(1t)1(7t)2b2(1g)55111n1(445)h6",
  "f(8ug)c33(1xc)5(1n)794(e4)3(14)2(de)1(1r)h(1s)212d2(cn0)41712(2hq)214(3mk)(1a)2n(f4)39g27u4",
  "(44)3(1iz)(1j)4(1e)81e1m51f(11s)71h2712155(1q)x1(4g)e(a8)1(1p)4(e3)5(72)2(6r)121725191(cw)7",
  "(31)8(23z)5(gx6p)1u(2o)(3k)(6o)"]

/-- The code point that a run maps `n` to. -/
def CaseRun.map? (r : CaseRun) (n : Nat) : Option Nat :=
  if r.first ≤ n && n ≤ r.last && (n - r.first) % r.step == 0 then
    some ((n : Int) + r.shift).toNat
  else none

/-- What a character beyond ASCII becomes. -/
def mapCase (several : List (Nat × List Nat)) (runs : List CaseRun) (c : Char) : List Char :=
  match several.lookup c.toNat with
  | some ns => ns.map Char.ofNat
  | none =>
    match runs.findSome? fun r => r.map? c.toNat with
    | some n => [Char.ofNat n]
    | none => [c]

def upperChar (c : Char) : List Char :=
  if c.toNat < 128 then [c.toUpper] else mapCase upperSeveral upperRuns c

/-- A character in lower case, its place in the text apart. -/
def lowerChar (c : Char) : List Char :=
  if c.toNat < 128 then [c.toLower] else mapCase lowerSeveral lowerRuns c

def isCased (c : Char) : Bool :=
  if c.toNat < 128 then c.isAlpha else inRanges c.toNat casedRanges

/-- Whether case looks past a character. -/
def isCaseIgnored (c : Char) : Bool :=
  if c.toNat < 128 then ['\'', '.', ':', '^', '`'].contains c
  else inRanges c.toNat ignoredRanges

/-- Whether a cased letter comes first, ignored characters apart. -/
def startsCased (cs : List Char) : Bool := ((cs.dropWhile isCaseIgnored).head?).any isCased

/-- The characters of a text in lower case; `before` holds the text so far, last character
first. -/
def lowerFrom (before : List Char) : List Char → List Char
  | [] => []
  | c :: cs =>
    (if c == 'Σ' then (if startsCased before && !startsCased cs then ['ς'] else ['σ'])
      else lowerChar c) ++ lowerFrom (c :: before) cs

/-- A text in upper case. -/
def upper (s : String) : String := String.ofList (s.toList.flatMap upperChar)

/-- A text in lower case. -/
def lower (s : String) : String := String.ofList (lowerFrom [] s.toList)

end Text
end AtomicStyles
