import IotChain.Bytes.LittleEndian

/-!
# Byte streams

`buffer_stream` and `memory_reader` implement the abstract class `stream` over
the same two things, a run of bytes and a cursor `n_`, and read alike.  They
differ in writing: a `buffer_stream` inserts at its cursor, a `memory_reader`
refuses.  The reading side is the monad `Reading`, whose state is the stream.
-/

namespace IotChain

open IotChain.Bytes

/-- The exceptions of the standard library that the source throws. -/
inductive StdException
  | runtimeError (what : String)
  | logicError (what : String)
  deriving DecidableEq, Repr

/-- Subtraction of two `size_t` values: it wraps modulo `2 ^ 64` when the second
is the larger. -/
def sizeSub (left right : Nat) : Nat :=
  if right ≤ left then left - right else left + 2 ^ 64 - right

theorem sizeSub_of_le {left right : Nat} (le : right ≤ left) :
    sizeSub left right = left - right :=
  if_pos le

/-- The state of a `stream`: its bytes and its cursor `n_`. -/
structure Stream where
  buf : List UInt8
  n : Nat
  deriving DecidableEq, Repr

namespace Stream

/-- A default-constructed `buffer_stream`. -/
def empty : Stream := ⟨[], 0⟩

/-- A `memory_reader` over some bytes. -/
def memoryReader (buf : List UInt8) : Stream := ⟨buf, 0⟩

/-- `stream::size`. -/
def size (stream : Stream) : Nat := stream.buf.length

/-- `buffer_stream::write`: insert the bytes at the cursor and step over them. -/
def write (stream : Stream) (bytes : List UInt8) : Stream where
  buf := stream.buf.take stream.n ++ bytes ++ stream.buf.drop stream.n
  n := stream.n + bytes.length

/-- `read(void*, count)` of both stream classes. -/
def read (stream : Stream) (count : Nat) :
    Except StdException (List UInt8 × Stream) :=
  if sizeSub stream.size stream.n < count then
    throw (.runtimeError "end of stream")
  else
    pure ((stream.buf.drop stream.n).take count, { stream with n := stream.n + count })

@[simp]
theorem write_nil (stream : Stream) : stream.write [] = stream := by
  simp [write]

/-- Two writes in a row are one write of the joined bytes, as long as the cursor
is inside the buffer. -/
theorem write_write {stream : Stream} (inside : stream.n ≤ stream.size)
    (first second : List UInt8) :
    (stream.write first).write second = stream.write (first ++ second) := by
  have takeLength : (stream.buf.take stream.n).length = stream.n := by
    simpa [size] using inside
  have prefixEq : (stream.write first).buf.take (stream.write first).n =
      stream.buf.take stream.n ++ first := by
    simp only [write]
    rw [List.take_left' (by simp [takeLength])]
  have suffixEq : (stream.write first).buf.drop (stream.write first).n =
      stream.buf.drop stream.n := by
    simp only [write]
    rw [List.drop_left' (by simp [takeLength])]
  rw [write, prefixEq, suffixEq]
  simp [write, Nat.add_assoc]

theorem write_inside {stream : Stream} (inside : stream.n ≤ stream.size)
    (bytes : List UInt8) : (stream.write bytes).n ≤ (stream.write bytes).size := by
  simp only [size, write, List.length_append, List.length_take, List.length_drop]
    at inside ⊢
  omega

@[simp]
theorem empty_write (bytes : List UInt8) :
    empty.write bytes = ⟨bytes, bytes.length⟩ := by
  simp [empty, write]

/-- Reading a stream whose next bytes are known. -/
theorem read_append (before bytes after : List UInt8) :
    (Stream.mk (before ++ bytes ++ after) before.length).read bytes.length =
      .ok (bytes, ⟨before ++ bytes ++ after, before.length + bytes.length⟩) := by
  have enough : ¬ sizeSub (before ++ bytes ++ after).length before.length <
      bytes.length := by
    rw [sizeSub_of_le (by simp)]
    simp
  rw [read, if_neg (by simpa [size] using enough)]
  simp [pure, Except.pure]

end Stream

end IotChain
