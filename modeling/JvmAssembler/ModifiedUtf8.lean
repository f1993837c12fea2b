import JvmAssembler.Bytes

/-!
# Modified UTF-8

The text encoding of `Utf8` constants. It differs from UTF-8 in two ways: U+0000 takes the two-byte
form, so that no encoded text holds a zero byte, and a supplementary character is written as its two
surrogates, each in the three-byte form.
-/

namespace JvmAssembler.ModifiedUtf8

/-- The two-byte form, for codes of at most eleven bits. -/
def twoBytes (code : Nat) : Bytes :=
  [UInt8.ofNat (0xC0 + code / 0x40 % 0x20), UInt8.ofNat (0x80 + code % 0x40)]

/-- The three-byte form, for codes of at most sixteen bits. -/
def threeBytes (code : Nat) : Bytes :=
  [UInt8.ofNat (0xE0 + code / 0x1000 % 0x10), UInt8.ofNat (0x80 + code / 0x40 % 0x40),
    UInt8.ofNat (0x80 + code % 0x40)]

/-- The high surrogate of a supplementary code point. -/
def highSurrogate (code : Nat) : Nat := 0xD800 + (code - 0x10000) / 0x400

/-- The low surrogate of a supplementary code point. -/
def lowSurrogate (code : Nat) : Nat := 0xDC00 + (code - 0x10000) % 0x400

/-- The encoding of one character, which takes one, two, three or six bytes. -/
def encodeChar (c : Char) : Bytes :=
  let code := c.toNat
  if 0x0001 ≤ code ∧ code ≤ 0x007F then [UInt8.ofNat code]
  else if code ≤ 0x07FF then twoBytes code
  else if code ≤ 0xFFFF then threeBytes code
  else threeBytes (highSurrogate code) ++ threeBytes (lowSurrogate code)

/-- The encoding of a text. -/
def encode (text : String) : Bytes :=
  text.toList.flatMap encodeChar

end JvmAssembler.ModifiedUtf8
