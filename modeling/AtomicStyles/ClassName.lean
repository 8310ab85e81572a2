import AtomicStyles.Base36
import AtomicStyles.Fingerprint

/-!
# Class names

The class of an atomic rule is a prefix followed by the token of the fingerprint of
the rule's key. A token may start with a digit, with which no identifier of a style
sheet starts; the prefix is there to make the name one.
-/

namespace AtomicStyles
namespace ClassName

def token (key : String) : String := Base36.encode (Fingerprint.ofText key)

/-- The class name of `key` under a prefix. -/
def ofKey (pre key : String) : String := pre ++ token key

end ClassName
end AtomicStyles
