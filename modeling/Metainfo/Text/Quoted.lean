import Metainfo.Data.Arith

/-!
# Quoted text

The quoted form of a text, as diagnostics show names and byte strings: the text
between double quotes, with

* `\0`, `\t`, `\r`, `\n` for those control characters and a backslash before `\` and
  `"`;
* `\u{h}` with lowercase hex digits and no leading zeros for a character that is not
  printable or that extends the grapheme before it (a combining mark);
* every other character as it is.

`isPrintable` and `isGraphemeExtend` are tables of Unicode properties. A character is
not printable when it is a control, format, private-use or separator character
(the ASCII space apart) or a noncharacter; the tables list the ranges of those classes
and of the combining marks that occur in text outside a few specialised scripts.
-/

namespace Metainfo
namespace Text

/-- Ranges, inclusive, of characters that are not printable. -/
def unprintableRanges : List (Nat × Nat) :=
  [(0x0, 0x1f), (0x7f, 0xa0), (0xad, 0xad), (0x378, 0x379), (0x380, 0x383), (0x38b, 0x38b),
   (0x38d, 0x38d), (0x3a2, 0x3a2), (0x530, 0x530), (0x557, 0x558), (0x58b, 0x58c),
   (0x590, 0x590), (0x5c8, 0x5cf), (0x5eb, 0x5ee), (0x5f5, 0x605), (0x61c, 0x61c),
   (0x6dd, 0x6dd), (0x70e, 0x70f), (0x890, 0x891), (0x8e2, 0x8e2), (0x1680, 0x1680),
   (0x180e, 0x180e), (0x2000, 0x200f), (0x2028, 0x202f), (0x205f, 0x206f),
   (0x2072, 0x2073), (0x208f, 0x208f), (0x3000, 0x3000), (0xd800, 0xf8ff),
   (0xfdd0, 0xfdef), (0xfeff, 0xfeff), (0xfff0, 0xfffb), (0xfffe, 0xffff),
   (0x110bd, 0x110bd), (0x110cd, 0x110cd), (0x13430, 0x1343f), (0x1bca0, 0x1bca3),
   (0x1d173, 0x1d17a), (0x2fffe, 0x2ffff), (0x3fffe, 0x3ffff), (0x323b0, 0xdffff),
   (0xe0000, 0xe00ff), (0xe01f0, 0x10ffff)]

/-- Ranges, inclusive, of characters that extend the grapheme before them. -/
def graphemeExtendRanges : List (Nat × Nat) :=
  [(0x300, 0x36f), (0x483, 0x489), (0x591, 0x5bd), (0x5bf, 0x5bf), (0x5c1, 0x5c2),
   (0x5c4, 0x5c5), (0x5c7, 0x5c7), (0x610, 0x61a), (0x64b, 0x65f), (0x670, 0x670),
   (0x6d6, 0x6dc), (0x6df, 0x6e4), (0x6e7, 0x6e8), (0x6ea, 0x6ed), (0x711, 0x711),
   (0x730, 0x74a), (0x7a6, 0x7b0), (0x7eb, 0x7f3), (0x93c, 0x93c), (0x941, 0x948),
   (0x94d, 0x94d), (0x951, 0x957), (0x962, 0x963), (0xe31, 0xe31), (0xe34, 0xe3a),
   (0xe47, 0xe4e), (0x1ab0, 0x1aff), (0x1dc0, 0x1dff), (0x200c, 0x200c),
   (0x20d0, 0x20f0), (0x302a, 0x302f), (0x3099, 0x309a), (0xfe00, 0xfe0f),
   (0xfe20, 0xfe2f), (0xff9e, 0xff9f), (0xe0020, 0xe007f), (0xe0100, 0xe01ef)]

/-- The code point lies in one of the ranges. -/
def inRanges (rs : List (Nat × Nat)) (c : Char) : Bool :=
  rs.any fun r => r.1 ≤ c.toNat && c.toNat ≤ r.2

/-- A character shown as it is. -/
def isPrintable (c : Char) : Bool :=
  !inRanges unprintableRanges c && c.toNat % 0x10000 < 0xfffe

/-- A character that combines with the one before it. -/
def isGraphemeExtend (c : Char) : Bool :=
  inRanges graphemeExtendRanges c

/-- Lowercase hexadecimal digits of a number, without leading zeros. -/
def hexDigits (n : Nat) : String :=
  String.ofList (Nat.toDigits 16 n)

/-- The escape of one character inside a quoted text. -/
def escapeChar (c : Char) : String :=
  if c = '\x00' then "\\0"
  else if c = '\t' then "\\t"
  else if c = '\r' then "\\r"
  else if c = '\n' then "\\n"
  else if c = '\\' then "\\\\"
  else if c = '"' then "\\\""
  else if isGraphemeExtend c || !isPrintable c then "\\u" ++ "\x7b" ++ hexDigits c.toNat ++ "\x7d"
  else String.singleton c

/-- The quoted form of a text. -/
def quote (s : String) : String :=
  "\"" ++ String.join (s.toList.map escapeChar) ++ "\""

end Text
end Metainfo
