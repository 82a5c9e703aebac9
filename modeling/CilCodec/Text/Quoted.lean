import CilCodec.Text.Hex
import CilCodec.Text.Printable

/-!
# CilCodec.Text.Quoted

Texts written with escapes.

`quoted` is the form in double quotes used in dumps: characters without a glyph appear as their code
points. `asciiEscaped` is the form used inside messages: everything outside printable ASCII appears
as its code point, and both kinds of quotes are escaped.
-/

namespace CilCodec

/-- The escape that names a character by its code point. -/
def codePointEscape (c : Char) : List Char :=
  '\\' :: 'u' :: '\x7b' :: (Nat.toDigits 16 c.toNat ++ ['\x7d'])

/-- A character inside double quotes. -/
def quotedChar (c : Char) : List Char :=
  match c with
  | '\x00' => ['\\', '0']
  | '\t' => ['\\', 't']
  | '\r' => ['\\', 'r']
  | '\n' => ['\\', 'n']
  | '"' => ['\\', '"']
  | '\\' => ['\\', '\\']
  | c => if isPrintable c then [c] else codePointEscape c

/-- A text in double quotes. -/
def quoted (s : String) : String :=
  String.ofList ('"' :: (s.toList.flatMap quotedChar ++ ['"']))

/-- A character in printable ASCII. -/
def asciiEscapedChar (c : Char) : List Char :=
  match c with
  | '\t' => ['\\', 't']
  | '\r' => ['\\', 'r']
  | '\n' => ['\\', 'n']
  | '\'' => ['\\', '\'']
  | '"' => ['\\', '"']
  | '\\' => ['\\', '\\']
  | c => if 0x20 ≤ c.toNat && c.toNat ≤ 0x7e then [c] else codePointEscape c

/-- A text in printable ASCII. -/
def asciiEscaped (s : String) : String :=
  String.ofList (s.toList.flatMap asciiEscapedChar)

end CilCodec
