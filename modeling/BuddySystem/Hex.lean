/-!
# Numbers in base sixteen

Frame numbers and addresses are written in base sixteen, in lower case and with
no leading zeros: `hexDigits` is the bare form that addresses take, `hexLiteral`
the form with `0x` in front that frame numbers take.
-/

namespace BuddySystem

/-- The digits of `n` in base sixteen, in lower case. -/
def hexDigits (n : Nat) : String := String.ofList (Nat.toDigits 16 n)

/-- The digits of `n` in base sixteen after `0x`. -/
def hexLiteral (n : Nat) : String := "0x" ++ hexDigits n

end BuddySystem
