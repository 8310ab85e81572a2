import AtomicStyles.Base36

/-!
# Identifier characters beyond ASCII

The ranges of characters with the Unicode properties `ID_Start` and, apart from
those, `ID_Continue`.
-/

namespace AtomicStyles
namespace Text

/-- The ranges whose sizes a list gives, each after the size of the gap before it, from the code
point `n` on. -/
def rangesFrom (n : Nat) : List Nat → List (Nat × Nat)
  | gap :: size :: rest => (n + gap, n + gap + size - 1) :: rangesFrom (n + gap + size) rest
  | _ => []

/-- The numbers that a text spells in base 36. A digit is a number by itself, digits in parentheses
are one together, of which `part` holds those before the text. -/
def spelledNumbers (part : Option Nat) : List Char → List Nat
  | [] => []
  | '(' :: cs => spelledNumbers (some 0) cs
  | ')' :: cs => part.toList ++ spelledNumbers none cs
  | c :: cs =>
    match part with
    | some n => spelledNumbers (some (n * 36 + Base36.digitValue c)) cs
    | none => Base36.digitValue c :: spelledNumbers none cs

/-- The ranges beyond ASCII whose gaps and sizes the lines of a text spell. -/
def ranges (lines : List String) : List (Nat × Nat) :=
  rangesFrom 128 (spelledNumbers none (lines.flatMap String.toList))

/-- The characters beyond ASCII that may start an identifier. -/
def identStartRanges : List (Nat × Nat) := ranges [
  "(16)1a1415n1v1(cq)4ce57111(3l)51224116113111k1(2b)1(3v)8(4m)1(12)216(15)21(1w)r44(19)(17)z21",
  "(2r)11f272a321g11ut(2h)b1ox92415m419131np7b5o17g(16)(1m)(1i)31i17afg48222m17113431g1d213e2a186",
  "422m17121212v411j3g9131m17121531i1f2n1b8222m17121531u213f1h116331432111232333cm1(1g)8131n1g31q",
  "31222u148131n1a1531u312f2h9131(15)21g15383o65i3o191127(1m)(1c)12c7(1m)211151o111a12912511l4w1",
  "(1r)81(10)r5(37)(17)k1g6443132734dc1h(12)11512(17)1(99)142711142(15)142x142711142f1(1l)142(1v)",
  "(11)gg(2e)263(h8)2h1q5(23)3b7idjeied13f(1g)z141(1v)(2h)7(15)115(1y)av(1d)u25b(18)4q(1i)n9(1h)",
  "(2a)1(2l)(1b)h8(1i)ud2a(18)q(10)(15)3a(10)2b5(17)23(15)41612315(5c)(1s)(7q)262(12)26281111111v",
  "2(1h)1711331734264d5317(38)1d1gd(2t)1412a11266111111g245541h(15)(22f)(6d)6432c(12)11512(1k)71g",
  "n9717171717171717(fa)3p975254(2e)451(2i)145(17)1(2m)hw(1c)g(e8)(534)(1s)(h3h)(1v)(1a)2(7h)3ga2",
  "k(1b)gv2(28)(13)92(2v)2(2a)kh13141nt(1g)e(1e)(1q)63112bsanpt7(1b)s1g51aa51(15)n318kn313(1e)113",
  "2252111o32b73c6262697171(17)1e6(37)t(8mc)cn4(1d)(6is)(a6)2(2y)(12)7c5511a1d151112121(30)x(a3)i",
  "(1s)2(1i)(14)c(38)51(3r)(10)q6qb(2h)36262623zc1q1j121f2ey(3f)(1x)(1h)(7f)t3(1d)(1b)wdu5(12)au2",
  "(10)4815(16)(4e)i(10)4(10)4(14)8(1g)cb1f17121b1f17123(1g)c(8n)9ma8o61(16)19(1x)6211(18)12312na",
  "n9v(1t)j12amaq6q(12)(1k)62(1s)1f4131t(16)t3tz81sr(1i)amajdi(32)(21)(1j)(1f)d(1f)d(10)(12)s9n",
  "(6y)(16)62g6(1k)ta18m(16)i(1a)lrnc(1h)(1l)221d(19)wpq(10)t1218z31c(1c)e4l111zi1pj2(1r)711141f1",
  "a7(1b)(12)8222m17121531i1c5ua11211(12)11p111(18)(1h)i4k3u(1c)k211(54)(1b)(15)4(10)(1c)k1(1n)",
  "(17)d1(1z)r(11)7(55)(18)(38)(1s)v82128121of111(2m)82(13)g111s1a(14)71l1b(1a)j1i(21)(5j)xv91",
  "(11)h1(1d)u(34)7121(12)l1p6121we1n(18)(78)jf11d1y(3g)1(27)(pm)(2u)(33)h(5g)(218)(2p)f(ts)h6p",
  "(32z)5(g7)(5a1)u(1cy)(ft)7vh(27)hui(1c)g4vl5j(c0)(19)(5v)(1s)wp2p(18)(23)51(1u)d(1s)211e59",
  "(5p2)(15)w(2p)(37)(6pp)417121(83)f1t321e48(b0)(1s4)(2z)5d397a(4me)(2d)1(1z)122122241c11171(1t)",
  "1428171s141511371(9g)2p1p1v1p1v1p1v1p1v1p18(1f8)v66(79)(1q)(42)(19)a7g1(8x)ui(18)(dg)s(6c)u21",
  "(5r)v1312172592(68)714121f1(5h)(1n)(1w)71(xg)41r1211211a14111161411111131211211111111112112417",
  "1414111a1h53151h(3es)(wyo)w(3dq)2(4ge)2(5rl)f(ha)(1wi)(f2)(15u)(3t7)5(6ju)(upy)(8qo)"]

/-- The characters beyond ASCII that may only continue an identifier. -/
def identPartRanges : List (Nat × Nat) := ranges [
  "(1j)1(g8)(34)n1(6z)5(7d)(19)11121211(20)b(1c)v61(2t)72622142an1ur(2j)bfax991o4191315(17)3(1n)9",
  "(16)o1x(1i)31i17a22ah3(1k)117222391a22ae123(1k)115422331kc31b3(1k)1181313k22aa613(1k)117222373",
  "a22ai1(1n)5331491eag5(1j)117131472b22ah3(1k)117131472b22a31c4(1j)217131491a22ah3(1y)14611186a2",
  "2(1p)127c81a(2f)129b71a(1q)26ab1111142(1d)k125b1(10)91(2s)k1ac443132734dc1f(jj)399(ps)4s3t2u2",
  "(1s)w912ax31b(3z)1(3a)c4caa(3k)b(1o)5(1l)a1t2b6ame1v2ck5(1b)hbah9c3ud2a(18)e(1c)k8a6a(3a)31l41",
  "6123(5i)(1s)(ek)2(1d)2j1(3f)d413c(2da)3(3x)1(2o)w(fe)6(2x)2(2o)1(n50)a(1x)14aw2(28)2(7k)13141n",
  "541(2b)2(1e)iaa6idbs8pd(18)4(1b)efab1aa(1b)ec1822ax3(1e)113225211(15)552(6k)8122a(fms)1(kh)ggg",
  "32o3(5c)a(11)1(11)1(if)1(6a)1(45)5(85)a(11z)31254(14)341(4l)2(fx)48a6av5(8t)2(25)6(1y)b(1d)4",
  "(3e)3(1h)fvb22a4(19)b71(19)a63(10)e1a52(18)1c3(1c)e841c(2a)c6121(4d)c5a64(1j)217222391a22735",
  "(1v)91121141511e2(2a)i9a41(29)kca(5x)729r2(2a)hfa(29)d8a6k(1l)f4a(6q)f(4l)a(1y)612241112ca(3b)",
  "72731sa(14)714819b(1a)g(5i)8(3s)a(1h)818ga(1k)m1e(3e)6311217118a(1c)512158a(1i)a(7d)49211(1c)7",
  "35db(44l)16f(8ug)s(1t2)a(2e)a(12)5(1n)7pa(eu)a(d1)11(1j)74(29)1b2(f57)2(381)a(ee)(1a)2n(f2)536",
  "8827u4(44)3(13d)(1e)(e8)(1j)4(1e)81e1m51f(11s)71h271215(2s)1(4g)79a(9w)1(1p)e(du)e(6s)21a(6g)1",
  "217251(d6)7(31)75a(3o6)a(gvt2)(6o)"]

/-- Whether a code point lies in one of several ranges. -/
def inRanges (n : Nat) : List (Nat × Nat) → Bool
  | [] => false
  | (lo, hi) :: rest => (lo ≤ n && n ≤ hi) || inRanges n rest

def isIdentStart (c : Char) : Bool :=
  if c.toNat < 128 then c.isAlpha || c == '_' || c == '$' else inRanges c.toNat identStartRanges

/-- Whether a character may continue an identifier. -/
def isIdentPart (c : Char) : Bool :=
  if c.toNat < 128 then c.isAlphanum || c == '_' || c == '$'
  else inRanges c.toNat identStartRanges || inRanges c.toNat identPartRanges

end Text
end AtomicStyles
