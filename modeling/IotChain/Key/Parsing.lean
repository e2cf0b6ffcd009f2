import IotChain.Key.Text

/-!
# Exact parsing of keys

A string that does not stand for a key of the right length should be rejected.  Both
constructors let some such strings through, and read or write outside of their arrays for
others.
-/

namespace IotChain

open IotChain.Bytes

/-- The string stands for `total` bytes: one of the types, then what the checksum is
computed from and the checksum. -/
def ValidText (digests : Digests) (types : List KeyType) (total : Nat) (key : List UInt8) : Prop :=
  ∃ pk, Base58.decode key = .ok (some pk) ∧ pk.length = total ∧
    ∃ keyType, Checked digests types keyType pk

/-- The constructor yields a key exactly for valid strings, throws for the others and stays
inside its arrays. -/
@[mk_iff]
structure ParsesExactly {α : Type} (valid : Prop) (parse : Except KeyFailure α) : Prop where
  yields : (∃ key, parse = .ok key) ↔ valid
  throws : ¬ valid → ∃ failure, failure.IsException ∧ parse = .error failure
  inside : parse ≠ .error .outOfBounds

/-- Decoding throws, or it succeeds with bytes that start with no type of the constructor,
that have the expected length, or of which there are five at least and the last four are
not the checksum. -/
def Regular (digests : Digests) (types : List KeyType) (total : Nat) (key : List UInt8) : Prop :=
  (∃ failure, failure.IsException ∧ Base58.decode key = .error failure) ∨
  ∃ pk, Base58.decode key = .ok (some pk) ∧ pk ≠ [] ∧
    ((∀ keyType ∈ types, pk.head? ≠ some keyType.value) ∨ pk.length = total ∨
      5 ≤ pk.length ∧ ∀ keyType ∈ types, ¬ Checked digests types keyType pk)

section Parsing

variable {digests : Digests} {types : List KeyType} {total n : Nat}
  {payload : List UInt8 → List UInt8} {key : List UInt8}

theorem ParsesExactly.of_exception {α : Type} {valid : Prop} {parse : Except KeyFailure α}
    {failure : KeyFailure} (invalid : ¬ valid) (exception : failure.IsException)
    (run : parse = .error failure) : ParsesExactly valid parse where
  yields := by
    apply iff_of_false _ invalid
    rintro ⟨value, yields⟩
    cases run.symm.trans yields
  throws _ := ⟨failure, exception, run⟩
  inside := by
    rintro outside
    cases run.symm.trans outside
    exact absurd exception (by decide)

theorem not_parsesExactly_of_outOfBounds {α : Type} {valid : Prop} {parse : Except KeyFailure α}
    (run : parse = .error .outOfBounds) : ¬ ParsesExactly valid parse :=
  fun exactly => exactly.inside run

theorem parsesExactly_map {α β : Type} {valid : Prop} {parse : Except KeyFailure α} (f : α → β) :
    ParsesExactly valid (parse >>= fun key => pure (f key)) ↔ ParsesExactly valid parse := by
  have yields : (∃ key, (parse >>= fun key => pure (f key)) = .ok key) ↔
      ∃ key, parse = .ok key := by
    cases parse with
    | ok key => exact iff_of_true ⟨f key, rfl⟩ ⟨key, rfl⟩
    | error failure => exact iff_of_false (fun ⟨_, ok⟩ => by cases ok) (fun ⟨_, ok⟩ => by cases ok)
  have fails (failure : KeyFailure) :
      (parse >>= fun key => pure (f key)) = .error failure ↔ parse = .error failure := by
    cases parse with
    | ok key => exact iff_of_false (fun fail => by cases fail) (fun fail => by cases fail)
    | error other => exact Iff.of_eq (by simp only [bind, Except.bind, Except.error.injEq])
  rw [parsesExactly_iff, parsesExactly_iff, yields]
  simp only [fails, ne_eq]

theorem validText_iff {pk : List UInt8} (decoded : Base58.decode key = .ok (some pk)) :
    ValidText digests types total key ↔
      pk.length = total ∧ ∃ keyType, Checked digests types keyType pk := by
  simp only [ValidText, decoded, Except.ok.injEq, Option.some.injEq, exists_eq_left']

theorem regular_iff {pk : List UInt8} (decoded : Base58.decode key = .ok (some pk)) :
    Regular digests types total key ↔ pk ≠ [] ∧
      ((∀ keyType ∈ types, pk.head? ≠ some keyType.value) ∨ pk.length = total ∨
        5 ≤ pk.length ∧ ∀ keyType ∈ types, ¬ Checked digests types keyType pk) := by
  simp only [Regular, decoded, Except.ok.injEq, Option.some.injEq, exists_eq_left', reduceCtorEq,
    and_false, exists_false, false_or]

/-- Where decoding fails, so does the constructor. -/
theorem exactly_of_decode_error {failure : KeyFailure} (array : ByteVec n)
    (decoded : Base58.decode key = .error failure) :
    ParsesExactly (ValidText digests types total key)
        (parseKey digests types payload array key) ↔ Regular digests types total key := by
  have run : parseKey digests types payload array key = .error failure := by
    rw [parseKey, decoded]
    rfl
  have invalid : ¬ ValidText digests types total key := by
    rintro ⟨pk, success, _⟩
    cases decoded.symm.trans success
  constructor
  · intro exactly
    rcases exactly.throws invalid with ⟨thrown, exception, throws⟩
    cases run.symm.trans throws
    exact .inl ⟨_, exception, decoded⟩
  · rintro (⟨thrown, exception, throws⟩ | ⟨pk, success, _⟩)
    · cases decoded.symm.trans throws
      exact .of_exception invalid exception run
    · cases decoded.symm.trans success

/-- A string that stands for nothing leaves the vector empty, and its first byte is read. -/
theorem exactly_of_undecoded (array : ByteVec n) (decoded : Base58.decode key = .ok none) :
    ParsesExactly (ValidText digests types total key)
        (parseKey digests types payload array key) ↔ Regular digests types total key := by
  have run : parseKey digests types payload array key = .error .outOfBounds := by
    rw [parseKey, decoded]
    rfl
  apply iff_of_false (not_parsesExactly_of_outOfBounds run)
  rintro (⟨thrown, _, throws⟩ | ⟨pk, success, _⟩)
  · cases decoded.symm.trans throws
  · cases decoded.symm.trans success

/-- Bytes with a checksum that fits are copied, whatever their number is. -/
theorem exactly_of_checked {pk : List UInt8} {keyType : KeyType}
    (checked : Checked digests types keyType pk)
    (room : (payload pk).length ≤ n ↔ pk.length ≤ total) (array : ByteVec n) :
    ParsesExactly (pk.length = total ∧ ∃ keyType, Checked digests types keyType pk)
        (do return (keyType, ← copyInto array (payload pk))) ↔ pk.length = total := by
  by_cases fits : pk.length ≤ total
  · rcases @copyInto_of_le n array _ (room.mpr fits) with ⟨copied, run, _⟩
    rw [run]
    constructor
    · intro exactly
      exact (exactly.yields.mp ⟨_, rfl⟩).1
    · intro exact
      have valid : pk.length = total ∧ ∃ keyType, Checked digests types keyType pk :=
        ⟨exact, keyType, checked⟩
      exact ⟨iff_of_true ⟨_, rfl⟩ valid, fun invalid => absurd valid invalid, fun outside => by
        cases outside⟩
  · have outside := @copyInto_of_lt n array _
      (Nat.lt_of_not_le fun small => fits (room.mp small))
    rw [outside]
    apply iff_of_false (not_parsesExactly_of_outOfBounds rfl)
    omega

theorem exactly_of_decoded (large : 5 ≤ total)
    (room : ∀ pk, 5 ≤ pk.length → ((payload pk).length ≤ n ↔ pk.length ≤ total))
    (array : ByteVec n) {pk : List UInt8} (decoded : Base58.decode key = .ok (some pk)) :
    ParsesExactly (ValidText digests types total key)
        (parseKey digests types payload array key) ↔ Regular digests types total key := by
  rw [validText_iff decoded, regular_iff decoded, parseKey_of_decoded decoded]
  rcases checkKey_cases digests types pk with ⟨bad, run⟩ | ⟨nonempty, unknown, run⟩ |
    ⟨keyType, member, first, size, mismatch, run⟩ | ⟨keyType, checked, run⟩
  · rw [run]
    apply iff_of_false (not_parsesExactly_of_outOfBounds rfl)
    rintro ⟨nonempty, regular⟩
    rcases bad with empty | ⟨short, keyType, member, first⟩
    · exact nonempty empty
    · rcases regular with unknown | exact | enough
      · exact unknown keyType member first
      · omega
      · omega
  · rw [run]
    have invalid : ¬ (pk.length = total ∧ ∃ keyType, Checked digests types keyType pk) := by
      rintro ⟨_, keyType, checked⟩
      exact unknown keyType checked.member checked.first
    exact iff_of_true (.of_exception invalid (.inl rfl) rfl) ⟨nonempty, .inl unknown⟩
  · rw [run]
    have unchecked (other : KeyType) : ¬ Checked digests types other pk := by
      intro checked
      exact mismatch (KeyType.eq_of_head checked.first first ▸ checked)
    have invalid : ¬ (pk.length = total ∧ ∃ keyType, Checked digests types keyType pk) :=
      fun valid => unchecked _ valid.2.choose_spec
    have nonempty : pk ≠ [] := List.ne_nil_of_length_pos (by omega)
    apply iff_of_true (.of_exception invalid (.inr (.inl rfl)) rfl)
    exact ⟨nonempty, .inr (.inr ⟨size, fun other _ => unchecked other⟩)⟩
  · rw [run]
    have nonempty : pk ≠ [] :=
      List.ne_nil_of_length_pos (Nat.lt_of_lt_of_le (by decide) checked.size)
    apply (exactly_of_checked checked (room pk checked.size) array).trans
    constructor
    · intro exact
      exact ⟨nonempty, .inr (.inl exact)⟩
    · rintro ⟨_, unknown | exact | ⟨_, mismatch⟩⟩
      · exact absurd checked.first (unknown keyType checked.member)
      · exact exact
      · exact absurd checked (mismatch keyType checked.member)

theorem exactly_iff_regular (large : 5 ≤ total)
    (room : ∀ pk, 5 ≤ pk.length → ((payload pk).length ≤ n ↔ pk.length ≤ total))
    (array : ByteVec n) :
    ParsesExactly (ValidText digests types total key)
        (parseKey digests types payload array key) ↔ Regular digests types total key := by
  cases decoded : Base58.decode key with
  | error failure => exact exactly_of_decode_error array decoded
  | ok result =>
      cases result with
      | none => exact exactly_of_undecoded array decoded
      | some pk => exact exactly_of_decoded large room array decoded

end Parsing

/-- For every string, each of the two constructors parses exactly if and only if the string
is regular. -/
theorem keyStrings_iff (digests : Digests) (key : List UInt8) :
    ((∀ array, ParsesExactly (ValidText digests publicTypes 25 key)
        (PublicKey.ofString digests array key)) ↔ Regular digests publicTypes 25 key) ∧
    ((∀ array, ParsesExactly (ValidText digests privateTypes 37 key)
        (PrivateKey.ofString digests array key)) ↔ Regular digests privateTypes 37 key) := by
  constructor
  · have exactly (array : Crypto.PublicKey) :
        ParsesExactly (ValidText digests publicTypes 25 key)
          (PublicKey.ofString digests array key) ↔ Regular digests publicTypes 25 key :=
      (parsesExactly_map Prod.snd).trans
        (exactly_iff_regular (by decide) (fun pk _ => Iff.rfl) array)
    simp only [exactly, forall_const]
  · have room (pk : List UInt8) (size : 5 ≤ pk.length) :
        (secretPart pk).length ≤ 32 ↔ pk.length ≤ 37 := by
      rw [secretPart, List.length_take, List.length_drop]
      omega
    have exactly (array : Crypto.SecretKey) :
        ParsesExactly (ValidText digests privateTypes 37 key)
          (PrivateKey.ofString digests array key) ↔ Regular digests privateTypes 37 key :=
      (parsesExactly_map fun parsed => PrivateKey.mk parsed.2 parsed.1).trans
        (exactly_iff_regular (by decide) room array)
    simp only [exactly, forall_const]

/-- The empty string is read as if it stood for some bytes. -/
theorem keyStrings_fails :
    ¬ ∀ digests key array, ParsesExactly (ValidText digests publicTypes 25 key)
      (PublicKey.ofString digests array key) := by
  intro exactly
  exact (exactly SampleTransaction.digests [] (zeroBytes 25)).inside rfl

end IotChain
