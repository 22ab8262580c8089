/-!
# Text in quotes

Diagnostics show paths and settings between quotes, with what cannot be seen spelled out: quotes and
backslashes after a backslash, line ends and tabs by a letter, and any other character without a
shape of its own by its number in hexadecimal digits.
-/
namespace TileAtlas
namespace Quoted

/-- The ranges of characters that are controls, separators, marks of layout or for private use. -/
def shapeless : List (Nat × Nat) :=
  [(0x00, 0x1f), (0x7f, 0xa0), (0xad, 0xad), (0x300, 0x36f), (0x600, 0x605), (0x61c, 0x61c),
   (0x6dd, 0x6dd), (0x70f, 0x70f), (0x1680, 0x1680), (0x180e, 0x180e), (0x2000, 0x200f),
   (0x2028, 0x202f), (0x205f, 0x206f), (0x3000, 0x3000), (0xd800, 0xf8ff), (0xfe00, 0xfe0f),
   (0xfeff, 0xfeff), (0xfff9, 0xfffb), (0xe0000, 0x10ffff)]

def isShapeless (c : Char) : Bool := shapeless.any fun r => r.1 ≤ c.toNat && c.toNat ≤ r.2

def escapeChar (c : Char) : List Char :=
  match c with
  | '"' => ['\\', '"']
  | '\\' => ['\\', '\\']
  | '\n' => ['\\', 'n']
  | '\r' => ['\\', 'r']
  | '\t' => ['\\', 't']
  | c =>
    if c = Char.ofNat 0 then ['\\', '0']
    else if isShapeless c then
      "\\u\x7b".toList ++ Nat.toDigits 16 c.toNat ++ "\x7d".toList
    else [c]

/-- The text between quotes. -/
def text (s : String) : String := String.ofList ('"' :: s.toList.flatMap escapeChar ++ ['"'])

end Quoted
end TileAtlas
