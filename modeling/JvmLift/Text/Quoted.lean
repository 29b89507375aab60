import JvmLift.Text.Printable

/-!
Texts inside messages: quoted strings, and numbers in fixed shapes.
-/
namespace JvmLift.Text

def escapeChar (c : Char) : String :=
  if c = '"' then "\\\""
  else if c = '\\' then "\\\\"
  else if c = '\n' then "\\n"
  else if c = '\r' then "\\r"
  else if c = '\t' then "\\t"
  else if c.toNat = 0 then "\\0"
  else if isPrintable c then c.toString
  else "\\u\x7b" ++ String.ofList (Nat.toDigits 16 c.toNat) ++ "\x7d"

def quoted (s : String) : String :=
  "\"" ++ String.join (s.toList.map escapeChar) ++ "\""

def padZero (width : Nat) (digits : String) : String :=
  String.ofList (List.replicate (width - digits.length) '0') ++ digits

def hexByte (b : UInt8) : String :=
  "0x" ++ padZero 2 (String.ofList (Nat.toDigits 16 b.toNat))

def offset4 (n : Nat) : String := padZero 4 (toString n)

end JvmLift.Text
