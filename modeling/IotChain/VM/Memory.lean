import IotChain.VM.Machine

/-!
# Words in memory

The words of the stack against its bytes.
-/

namespace IotChain.VM

open IotChain.Bytes

namespace Memory

/-- The byte at an address, and zero outside. -/
def byteAt (stack : Memory) (address : Nat) : UInt8 :=
  if inside : address < stackSize then stack ⟨address, inside⟩ else 0

/-- The bytes from an address upward. -/
def bytesAt (stack : Memory) (address count : Nat) : List UInt8 :=
  (List.range count).map fun k => stack.byteAt (address + k)

@[simp]
theorem length_bytesAt (stack : Memory) (address count : Nat) :
    (stack.bytesAt address count).length = count := by
  rw [bytesAt, List.length_map, List.length_range]

theorem bytesAt_add (stack : Memory) (address first second : Nat) :
    stack.bytesAt address (first + second) =
      stack.bytesAt address first ++ stack.bytesAt (address + first) second := by
  rw [bytesAt, bytesAt, bytesAt, List.range_add, List.map_append, List.map_map]
  simp only [Function.comp_def, Nat.add_assoc]

theorem take_bytesAt (stack : Memory) (address : Nat) {count size : Nat} (le : count ≤ size) :
    (stack.bytesAt address size).take count = stack.bytesAt address count := by
  obtain ⟨rest, rfl⟩ := Nat.exists_eq_add_of_le le
  rw [bytesAt_add, List.take_left' (length_bytesAt stack address count)]

theorem load_eq (stack : Memory) (window : Window) :
    stack.load window = UInt64.ofNat (decodeLE (stack.bytesAt window.address 8)) := by
  rw [load]
  congr 2
  apply List.ext_getElem
  · rw [List.length_ofFn, length_bytesAt]
  · intro k bound _
    rw [List.length_ofFn] at bound
    have inside : window.address + k < stackSize := by
      have := window.inside
      omega
    rw [List.getElem_ofFn]
    simp only [bytesAt, byteAt, List.getElem_map, List.getElem_range, dif_pos inside]

/-- The bytes of a loaded word are those in memory. -/
theorem encodeLE_load (stack : Memory) (window : Window) :
    encodeLE 8 (stack.load window).toNat = stack.bytesAt window.address 8 := by
  have length := length_bytesAt stack window.address 8
  have fits : decodeLE (stack.bytesAt window.address 8) < 2 ^ 64 := by
    have lt := decodeLE_lt (stack.bytesAt window.address 8)
    rwa [length] at lt
  rw [load_eq, UInt64.toNat_ofNat', Nat.mod_eq_of_lt fits]
  nth_rewrite 1 [← length]
  exact encodeLE_decodeLE _

/-- Loading depends on the bytes of the word. -/
theorem load_congr {left right : Memory} {window : Window}
    (same : ∀ i : Fin stackSize, window.address ≤ i → i < window.address + 8 →
      left i = right i) : left.load window = right.load window := by
  rw [load, load]
  congr 3
  funext k
  exact same _ (Nat.le_add_right _ _) (Nat.add_lt_add_left k.isLt _)

/-- A word that was stored is loaded. -/
theorem load_store (stack : Memory) (window : Window) (value : UInt64) :
    (stack.store window value).load window = value := by
  have written : (stack.store window value).bytesAt window.address 8 =
      encodeLE 8 value.toNat := by
    apply List.ext_getElem
    · rw [length_bytesAt, length_encodeLE]
    · intro k bound encoded
      rw [length_bytesAt] at bound
      have inside : window.address + k < stackSize := by
        have := window.inside
        omega
      simp [bytesAt, byteAt, store, inside, bound]
  have fits : value.toNat < 256 ^ 8 := value.toNat_lt
  rw [load_eq, written, decodeLE_encodeLE, Nat.mod_eq_of_lt fits, UInt64.ofNat_toNat]

theorem load_store_of_apart {stack : Memory} {window other : Window} (value : UInt64)
    (apart : window.address + 8 ≤ other.address ∨ other.address + 8 ≤ window.address) :
    (stack.store other value).load window = stack.load window := by
  apply load_congr
  intro i lower upper
  apply if_neg
  omega

end Memory

/-! ## Moving `SP` -/

/-- A word that is pushed inside the stack ends where `SP` was. -/
theorem sub_eight_add_eight {sp : UInt64} (inside : (sp - 8).toNat + 8 ≤ stackSize) :
    (sp - 8).toNat + 8 = sp.toNat := by
  have lt := sp.toNat_lt
  rw [UInt64.toNat_sub] at inside ⊢
  have inside : (2 ^ 64 - 8 + sp.toNat) % 2 ^ 64 + 8 ≤ 0x1000000 := inside
  change (2 ^ 64 - 8 + sp.toNat) % 2 ^ 64 + 8 = sp.toNat
  omega

/-- A word that is popped inside the stack does not let `SP` wrap. -/
theorem add_eight_toNat {sp : UInt64} (inside : sp.toNat + 8 ≤ stackSize) :
    (sp + 8).toNat = sp.toNat + 8 := by
  rw [UInt64.toNat_add]
  exact Nat.mod_eq_of_lt (Nat.lt_of_le_of_lt inside (by decide))

theorem sub_sixteen_toNat {sp : UInt64} (room : 16 ≤ sp.toNat) :
    (sp - 8 - 8).toNat = sp.toNat - 16 := by
  have lt := sp.toNat_lt
  rw [UInt64.toNat_sub, UInt64.toNat_sub]
  change (2 ^ 64 - 8 + (2 ^ 64 - 8 + sp.toNat) % 2 ^ 64) % 2 ^ 64 = sp.toNat - 16
  omega

theorem Machine.sp_setRegister (m : Machine) {r : Fin 13} (ne : r ≠ SP) {value : UInt64} :
    (m.setRegister r value).registers SP = m.registers SP :=
  Registers.set_of_ne (Ne.symm ne) m.registers value

end IotChain.VM
