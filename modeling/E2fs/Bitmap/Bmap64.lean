import E2fs.Lib.Bytes
import E2fs.Lib.First
import E2fs.Lib.Word

/-! lib/ext2fs/bmap64.h: what a bitmap backend knows about the bitmap it stores. -/
namespace E2fs.Bitmap

/-- The `start`, `end` and `real_end` of a bitmap. Callers allocate from the file
system geometry, or `0 .. ~1ULL` for the undo file, so the number of bits is itself
a 64-bit word. -/
structure Bounds where
  start : Nat
  stop : Nat
  realEnd : Nat
  start_le : start ≤ stop
  stop_le : stop ≤ realEnd
  realEnd_lt : realEnd < 2 ^ 64
  size_lt : realEnd - start + 1 < 2 ^ 64

def Bounds.size (b : Bounds) : Nat := b.realEnd - b.start + 1

inductive Errcode where
  | enoent
  | einval
  deriving DecidableEq, Repr

/-- What a search of `[start, stop]` has to return: the first position, or `ENOENT`
when there is none. -/
def FirstResult (P : Nat → Prop) (start stop : Nat) : Except Errcode Nat → Prop
  | .ok p => First.IsFirst P start (stop + 1) (some p)
  | .error .enoent => First.IsFirst P start (stop + 1) none
  | .error .einval => False

end E2fs.Bitmap
