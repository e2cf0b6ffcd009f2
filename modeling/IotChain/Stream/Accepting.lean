import IotChain.Stream.Reading

/-!
# What a parser accepts

`Reads` says that a parser takes the words it should; `Accepts` says that it takes no
others.  A parser that does not throw end of stream has stepped over a word of the
language of the value it returns.  The streams are shorter than `2 ^ 31` bytes, so a
loop that reads at least a byte a round runs dry before its `int` counter overflows.
-/

namespace IotChain

open IotChain.Bytes

/-- What `read` throws when fewer bytes are left than it is asked for. -/
def endOfStream : ReadFailure := .thrown (.runtimeError "end of stream")

/-- Started between the two parts, the parser throws end of stream or stops behind a
word of its language. -/
def AcceptsAt {α : Type} (before rest : List UInt8) (parser : Reading α)
    (language : α → List UInt8 → Prop) : Prop :=
  match parser ⟨before ++ rest, before.length⟩ with
  | .ok (value, next) =>
      ∃ word after, rest = word ++ after ∧ language value word ∧
        next = ⟨before ++ rest, before.length + word.length⟩
  | .error failure => failure = endOfStream

/-- The same from every cursor of a stream whose length an `int` can hold. -/
def Accepts {α : Type} (parser : Reading α) (language : α → List UInt8 → Prop) : Prop :=
  ∀ before rest, before.length + rest.length < 2 ^ 31 →
    AcceptsAt before rest parser language

/-- The words that encode a source, each with the value the source is read as. -/
def Image {ι α : Type} (encode : ι → List UInt8) (decode : ι → α) (value : α)
    (word : List UInt8) : Prop :=
  ∃ source, value = decode source ∧ word = encode source

variable {α β : Type} {before rest : List UInt8} {parser : Reading α}
  {language : α → List UInt8 → Prop}

namespace AcceptsAt

theorem mono {wider : α → List UInt8 → Prop} (accepts : AcceptsAt before rest parser language)
    (le : ∀ value word, language value word → wider value word) :
    AcceptsAt before rest parser wider := by
  unfold AcceptsAt at accepts ⊢
  cases run : parser ⟨before ++ rest, before.length⟩ with
  | error failure =>
      rw [run] at accepts
      exact accepts
  | ok result =>
      rw [run] at accepts
      obtain ⟨word, after, restEq, member, nextEq⟩ := accepts
      exact ⟨word, after, restEq, le _ word member, nextEq⟩

theorem pure (value : α) :
    AcceptsAt before rest (Pure.pure value) fun result word => result = value ∧ word = [] :=
  ⟨[], rest, rfl, ⟨rfl, rfl⟩, rfl⟩

/-- A sequence accepts the concatenations of words of its two parts. -/
theorem bind {next : α → Reading β} {language' : α → β → List UInt8 → Prop}
    (first : AcceptsAt before rest parser language)
    (second : ∀ value word after, rest = word ++ after → language value word →
      AcceptsAt (before ++ word) after (next value) (language' value)) :
    AcceptsAt before rest (parser >>= next) fun result word =>
      ∃ value head tail, word = head ++ tail ∧ language value head ∧
        language' value result tail := by
  have sequence : (parser >>= next) ⟨before ++ rest, before.length⟩ =
      parser ⟨before ++ rest, before.length⟩ >>= fun run => next run.1 run.2 := rfl
  unfold AcceptsAt at first ⊢
  rw [sequence]
  cases run : parser ⟨before ++ rest, before.length⟩ with
  | error failure =>
      rw [run] at first
      exact first
  | ok result =>
      rw [run] at first
      obtain ⟨head, after, restEq, member, nextEq⟩ := first
      have continued := second result.1 head after restEq member
      unfold AcceptsAt at continued
      rw [List.length_append, List.append_assoc, ← restEq, ← nextEq] at continued
      change match next result.1 result.2 with
        | .ok (value, next) => _
        | .error failure => _
      cases ended : next result.1 result.2 with
      | error failure =>
          rw [ended] at continued
          exact continued
      | ok final =>
          rw [ended] at continued
          obtain ⟨tail, left, afterEq, member', finalEq⟩ := continued
          refine ⟨head ++ tail, left, ?_, ⟨result.1, head, tail, rfl, member, member'⟩, ?_⟩
          · rw [restEq, afterEq, List.append_assoc]
          · rw [finalEq, List.length_append, Nat.add_assoc]

end AcceptsAt

namespace Accepts

theorem mono {wider : α → List UInt8 → Prop} (accepts : Accepts parser language)
    (le : ∀ value word, language value word → wider value word) : Accepts parser wider :=
  fun before rest short => (accepts before rest short).mono le

theorem bind {next : α → Reading β} {language' : α → β → List UInt8 → Prop}
    (first : Accepts parser language) (second : ∀ value, Accepts (next value) (language' value)) :
    Accepts (parser >>= next) fun result word =>
      ∃ value head tail, word = head ++ tail ∧ language value head ∧
        language' value result tail := by
  intro before rest short
  apply (first before rest short).bind
  intro value word after restEq _
  rw [restEq, List.length_append] at short
  apply second value
  rw [List.length_append]
  omega

theorem pure (value : α) :
    Accepts (Pure.pure value) fun result word => result = value ∧ word = [] :=
  fun _ _ _ => AcceptsAt.pure value

/-- A parser's value may be changed at the end. -/
theorem map (f : α → β) (accepts : Accepts parser language) :
    Accepts (parser >>= fun value => Pure.pure (f value)) fun result word =>
      ∃ value, result = f value ∧ language value word := by
  apply (accepts.bind fun value => pure (f value)).mono
  rintro result word ⟨value, head, tail, wordEq, member, resultEq, rfl⟩
  rw [List.append_nil] at wordEq
  exact ⟨value, resultEq, wordEq ▸ member⟩

theorem bytes (count : Nat) :
    Accepts (Reading.bytes count) fun value word => value = word ∧ word.length = count := by
  intro before rest _
  have left : sizeSub (before ++ rest).length before.length = rest.length := by
    rw [sizeSub_of_le (by simp), List.length_append, Nat.add_sub_cancel_left]
  unfold AcceptsAt
  by_cases enough : rest.length < count
  · rw [Reading.bytes, Stream.read, if_pos (by rwa [Stream.size, left])]
    rfl
  · rw [Reading.bytes, Stream.read, if_neg (by rwa [Stream.size, left])]
    have takeLength : (rest.take count).length = count := by
      rw [List.length_take]
      omega
    refine ⟨rest.take count, rest.drop count, (List.take_append_drop count rest).symm,
      ⟨?_, takeLength⟩, ?_⟩
    · simp
    · rw [takeLength]

theorem uint32 :
    Accepts Reading.uint32 fun value word => word = encodeLE 4 value.toNat := by
  apply ((bytes 4).map _).mono
  rintro _ _ ⟨word, rfl, rfl, length⟩
  have fits : decodeLE word < 2 ^ 32 := by
    have lt := decodeLE_lt word
    rwa [length] at lt
  rw [UInt32.toNat_ofNat', Nat.mod_eq_of_lt fits, ← length, encodeLE_decodeLE]

theorem uint64 :
    Accepts Reading.uint64 fun value word => word = encodeLE 8 value.toNat := by
  apply ((bytes 8).map _).mono
  rintro _ _ ⟨word, rfl, rfl, length⟩
  have fits : decodeLE word < 2 ^ 64 := by
    have lt := decodeLE_lt word
    rwa [length] at lt
  rw [UInt64.toNat_ofNat', Nat.mod_eq_of_lt fits, ← length, encodeLE_decodeLE]

theorem array (n : Nat) :
    Accepts (Reading.array n) fun value word => word = value.toList := by
  apply ((bytes n).map _).mono
  rintro _ _ ⟨word, rfl, rfl, length⟩
  apply List.ext_getElem
  · simp [length]
  · intro i inside _
    simp [inside]

/-- A counted loop accepts a word of its item's language for each round.  It cannot
reach the last `int`, since every round before it has taken a byte. -/
theorem pushLoop {item : Reading α} (accepts : Accepts item language)
    (nonempty : ∀ value word, language value word → word ≠ []) {i : Nat} (count : Nat)
    (items : List α) (least : i ≤ before.length)
    (short : before.length + rest.length < 2 ^ 31) :
    AcceptsAt before rest (Reading.pushLoop item i count items) fun result word =>
      ∃ values words, result = items ++ values ∧ values.length = count ∧
        word = words.flatten ∧ List.Forall₂ language values words := by
  induction count generalizing before rest i items with
  | zero =>
      apply (AcceptsAt.pure items).mono
      rintro result word ⟨rfl, rfl⟩
      exact ⟨[], [], (List.append_nil result).symm, rfl, rfl, .nil⟩
  | succ count ih =>
      have continued : ∀ value head after, rest = head ++ after → language value head →
          AcceptsAt (before ++ head) after
            (if i = 2 ^ 31 - 1 then throw .signedOverflow
              else Reading.pushLoop item (i + 1) count (items ++ [value]))
            fun result word => ∃ values words, result = items ++ [value] ++ values ∧
              values.length = count ∧ word = words.flatten ∧
                List.Forall₂ language values words := by
        intro value head after restEq member
        have taken : 0 < head.length :=
          List.length_pos_iff.mpr (nonempty value head member)
        rw [restEq, List.length_append] at short
        rw [if_neg (by omega)]
        apply ih
        · rw [List.length_append]
          omega
        · rw [List.length_append]
          omega
      apply ((accepts before rest short).bind continued).mono
      rintro result _ ⟨value, head, _, rfl, member, values, words, rfl, length, rfl, members⟩
      exact ⟨value :: values, head :: words, by simp, by simp [length], by simp,
        .cons member members⟩

/-- With a parser that takes what it should and nothing else, the places where it can
stop behind a stream's first bytes are the ends of encodings. -/
theorem exact {ι : Type} {encode : ι → List UInt8} {decode : ι → α}
    (accepts : Accepts parser (Image encode decode)) {stream : List UInt8}
    (short : stream.length < 2 ^ 31)
    (reads : ∀ source, (encode source).length ≤ stream.length →
      Reads parser (encode source) (decode source)) (k : Nat) :
    (∃ value next, parser (Stream.memoryReader stream) = .ok (value, next) ∧ next.n = k) ↔
      k ≤ stream.length ∧ ∃ source, encode source = stream.take k := by
  constructor
  · rintro ⟨value, next, run, rfl⟩
    have accepted := accepts [] stream (by simpa using short)
    unfold AcceptsAt at accepted
    rw [List.nil_append, List.length_nil] at accepted
    rw [Stream.memoryReader] at run
    rw [run] at accepted
    obtain ⟨_, after, rfl, ⟨source, _, rfl⟩, rfl⟩ := accepted
    simp only [Nat.zero_add]
    constructor
    · rw [List.length_append]
      exact Nat.le_add_right _ _
    · exact ⟨source, List.take_left.symm⟩
  · rintro ⟨le, source, wordEq⟩
    have length : (encode source).length = k := by
      rw [wordEq, List.length_take, Nat.min_eq_left le]
    have run := reads source (by rw [length]; exact le) [] (stream.drop k)
    rw [List.nil_append, wordEq, List.take_append_drop, ← wordEq, length, List.length_nil,
      Nat.zero_add] at run
    exact ⟨_, _, run, rfl⟩

/-- The parser fails in no other way than at the end of the stream. -/
theorem failure_eq (accepts : Accepts parser language) {stream : List UInt8}
    (short : stream.length < 2 ^ 31) {failure : ReadFailure}
    (run : parser (Stream.memoryReader stream) = .error failure) : failure = endOfStream := by
  have accepted := accepts [] stream (by simpa using short)
  unfold AcceptsAt at accepted
  rw [List.nil_append, List.length_nil] at accepted
  rw [Stream.memoryReader] at run
  rwa [run] at accepted

end Accepts

end IotChain
