import Infos.Lib.Bytes

/-!
# The headers of an archive

A block device gives blocks of 512 bytes, and `none` where a read fails. A header is a block, of
which the fields are strings that end with a zero byte.
-/

open Infos.Bytes

namespace Infos.Fs

abbrev Block := Fin 512 → UInt8

def Block.byte (b : Block) (i : ℕ) : UInt8 := b (Fin.ofNat 512 i)

/-- The devices of this kernel count their blocks with 32 bits. -/
structure BlockDevice where
  block_count : ℕ
  count_lt : block_count < 2 ^ 32
  read_block : ℕ → Option Block

/-- The string that starts at the offset. -/
@[irreducible]
def Block.string (b : Block) (offset : ℕ) : List UInt8 :=
  ((List.ofFn b).drop offset).takeWhile (· ≠ 0)

namespace posix_header

def name (b : Block) : List UInt8 := b.string 0

def size (b : Block) : List UInt8 := b.string 124

def typeflag (b : Block) : UInt8 := b.byte 156

end posix_header

/-- The loop of `octal2ui`, from the last character on. A character is signed. -/
def octal2ui_loop : List UInt8 → UInt32 → UInt32 → UInt32
  | [], _, value => value
  | ch :: rest, factor, value =>
    octal2ui_loop rest (factor <<< 3) (value + factor * (ch.toInt8.toInt32.toUInt32 - 48))

/-- The first character is not looked at. -/
def octal2ui (data : List UInt8) : UInt32 := octal2ui_loop data.tail.reverse 1 0

end Infos.Fs
