import IotChain.Stream.Core

/-!
# Reading from a stream

Parsers are computations over a stream that may throw.  `Reads` is their
specification: wherever in a stream the given bytes stand, the parser started in
front of them returns the given value and stops right behind them.  The rules
below compose it along a parser's sequencing and its counted loops.
-/

namespace IotChain

open IotChain.Bytes

/-- How a parser fails: it throws, or its `int` loop counter overflows. -/
inductive ReadFailure
  | thrown (exception : StdException)
  | signedOverflow
  deriving DecidableEq, Repr

/-- A computation over a stream. -/
abbrev Reading := StateT Stream (Except ReadFailure)

namespace Reading

universe u

variable {α β : Type}

/-- `stream::read(void*, size_t)`. -/
def bytes (count : Nat) : Reading (List UInt8) := fun stream =>
  match stream.read count with
  | .ok result => .ok result
  | .error exception => .error (.thrown exception)

/-- `stream::read<uint32_t>`. -/
def uint32 : Reading UInt32 := do
  let value ← bytes 4
  return UInt32.ofNat (decodeLE value)

/-- `stream::read<uint64_t>`. -/
def uint64 : Reading UInt64 := do
  let value ← bytes 8
  return UInt64.ofNat (decodeLE value)

/-- A read into an array of the given size. -/
def array (n : Nat) : Reading (ByteVec n) := do
  let value ← bytes n
  return List.Vector.ofFn fun i => value.getD i 0

/-- The loop `for (int i = 0; i < size; i++) items.push_back(item())`, from index
`i` with `count` rounds to go. -/
def pushLoop (item : Reading α) : Nat → Nat → List α → Reading (List α)
  | _, 0, items => return items
  | i, count + 1, items => do
      let value ← item
      if i = 2 ^ 31 - 1 then
        throw .signedOverflow
      else
        pushLoop item (i + 1) count (items ++ [value])

end Reading

/-- Started in front of the bytes, the parser returns the value and stops behind
the bytes. -/
def Reads {α : Type} (parser : Reading α) (bytes : List UInt8) (value : α) : Prop :=
  ∀ before after,
    parser ⟨before ++ bytes ++ after, before.length⟩ =
      .ok (value, ⟨before ++ bytes ++ after, before.length + bytes.length⟩)

namespace Reads

variable {α β : Type} {parser : Reading α} {bytes : List UInt8} {value : α}

theorem pure (value : α) : Reads (Pure.pure value) [] value :=
  fun _ _ => rfl

theorem bind {next : α → Reading β} {more : List UInt8} {result : β}
    (first : Reads parser bytes value) (second : Reads (next value) more result) :
    Reads (parser >>= next) (bytes ++ more) result := by
  intro before after
  have firstRun := first before (more ++ after)
  have secondRun := second (before ++ bytes) after
  have streamEq : before ++ (bytes ++ more) ++ after = before ++ bytes ++ (more ++ after) := by
    simp
  have streamEq' : before ++ bytes ++ more ++ after = before ++ bytes ++ (more ++ after) := by
    simp
  rw [streamEq', List.length_append] at secondRun
  rw [streamEq, List.length_append, ← Nat.add_assoc]
  change (parser _ >>= fun run => next run.1 run.2) = _
  rw [firstRun]
  exact secondRun

/-- A parser's value may be changed at the end. -/
theorem map (f : α → β) (first : Reads parser bytes value) :
    Reads (parser >>= fun read => Pure.pure (f read)) bytes (f value) := by
  have run : Reads (parser >>= fun read => Pure.pure (f read)) (bytes ++ []) (f value) :=
    first.bind (pure (f value))
  rwa [List.append_nil] at run

theorem ofBytes (bytes : List UInt8) : Reads (Reading.bytes bytes.length) bytes bytes := by
  intro before after
  rw [Reading.bytes, Stream.read_append]

theorem ofBytes_of_length {count : Nat} (length : bytes.length = count) :
    Reads (Reading.bytes count) bytes bytes :=
  length ▸ ofBytes bytes

theorem uint32 (value : UInt32) : Reads Reading.uint32 (encodeLE 4 value.toNat) value := by
  have run := map (fun read => UInt32.ofNat (decodeLE read))
    (ofBytes_of_length (length_encodeLE 4 value.toNat))
  have fits : value.toNat < 256 ^ 4 := value.toNat_lt
  have decoded : UInt32.ofNat (decodeLE (encodeLE 4 value.toNat)) = value := by
    rw [decodeLE_encodeLE, Nat.mod_eq_of_lt fits, UInt32.ofNat_toNat]
  rwa [decoded] at run

theorem uint64 (value : UInt64) : Reads Reading.uint64 (encodeLE 8 value.toNat) value := by
  have run := map (fun read => UInt64.ofNat (decodeLE read))
    (ofBytes_of_length (length_encodeLE 8 value.toNat))
  have fits : value.toNat < 256 ^ 8 := value.toNat_lt
  have decoded : UInt64.ofNat (decodeLE (encodeLE 8 value.toNat)) = value := by
    rw [decodeLE_encodeLE, Nat.mod_eq_of_lt fits, UInt64.ofNat_toNat]
  rwa [decoded] at run

theorem array {n : Nat} (value : ByteVec n) : Reads (Reading.array n) value.toList value := by
  have run := map (fun read => (List.Vector.ofFn fun i => read.getD i 0 : ByteVec n))
    (ofBytes_of_length value.toList_length)
  have copied : (List.Vector.ofFn fun i => value.toList.getD i 0) = value := by
    apply List.Vector.ext
    intro i
    simp [List.Vector.get_eq_get_toList]
  rwa [copied] at run

/-- A counted loop reads the concatenation of what its rounds read, and adds the
values behind the items it starts with. -/
theorem pushLoop {ι : Type} {item : Reading α} {encode : ι → List UInt8} {decode : ι → α}
    {sources : List ι}
    (reads : ∀ source ∈ sources, Reads item (encode source) (decode source))
    {i : Nat} (bound : i + sources.length < 2 ^ 31) (items : List α) :
    Reads (Reading.pushLoop item i sources.length items) (sources.flatMap encode)
      (items ++ sources.map decode) := by
  induction sources generalizing i items with
  | nil =>
      rw [List.map_nil, List.append_nil]
      exact pure items
  | cons source sources ih =>
      have first := reads source List.mem_cons_self
      rw [List.length_cons] at bound
      have boundNext : i + 1 + sources.length < 2 ^ 31 := by omega
      have others := ih (fun other member => reads other (List.mem_cons_of_mem source member))
        boundNext (items ++ [decode source])
      rw [List.append_assoc, List.singleton_append] at others
      apply first.bind
      rw [if_neg (by omega)]
      exact others

end Reads

end IotChain
