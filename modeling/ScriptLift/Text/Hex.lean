namespace ScriptLift.Text

/-- Lower-case hexadecimal digits of `n`, the most significant first. -/
def hexDigits (n : Nat) : List Char := Nat.toDigits 16 n

/-- Zeros on the left up to `width`; a longer number keeps all its digits. -/
def padLeft (width : Nat) (digits : List Char) : List Char :=
  List.replicate (width - digits.length) '0' ++ digits

def offset (n : Nat) : String := String.ofList (padLeft 8 (hexDigits n))

def code (n : Nat) : String := String.ofList (padLeft 4 (hexDigits n))

end ScriptLift.Text
