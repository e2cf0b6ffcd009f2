import IotChain.VM.Machine

/-!
# The arithmetic of the virtual machine

The functions behind the arithmetic and comparing instructions.  A signed result
that does not fit is wrapped, which is what the compiled code computes.  The two
divisions that trap, by zero and of `INT64_MIN` by `-1`, have no value.
-/

namespace IotChain.VM

/-- `MCLVirtualMachine::Add`. -/
def add (v1 v2 : UInt64) : UInt64 := v1 + v2

/-- `MCLVirtualMachine::Sub`. -/
def sub (v1 v2 : UInt64) : UInt64 := v1 - v2

/-- `MCLVirtualMachine::Mul`. -/
def mul (v1 v2 : UInt64) : UInt64 := v1 * v2

/-- `MCLVirtualMachine::SMul`, compiled to a product that wraps. -/
def sMul (v1 v2 : UInt64) : UInt64 := (v1.toInt64 * v2.toInt64).toUInt64

/-- `MCLVirtualMachine::Div`. -/
def div (v1 v2 : UInt64) : Option UInt64 :=
  if v2 = 0 then none else some (v1 / v2)

/-- The operands on which a signed division traps. -/
def signedTrap (v1 v2 : Int64) : Bool :=
  v2 = 0 || (v1 = Int64.minValue && v2 = -1)

/-- `MCLVirtualMachine::SDiv`. -/
def sDiv (v1 v2 : UInt64) : Option UInt64 :=
  if signedTrap v1.toInt64 v2.toInt64 then
    none
  else
    some (v1.toInt64 / v2.toInt64).toUInt64

/-- `MCLVirtualMachine::Mod`. -/
def mod (v1 v2 : UInt64) : Option UInt64 :=
  if v2 = 0 then none else some (v1 % v2)

/-- `MCLVirtualMachine::SMod`. -/
def sMod (v1 v2 : UInt64) : Option UInt64 :=
  if signedTrap v1.toInt64 v2.toInt64 then
    none
  else
    some (v1.toInt64 % v2.toInt64).toUInt64

/-- `MCLVirtualMachine::Exp`.  The intermediate power is an `int`. -/
def exp (v1 v2 : UInt64) : UInt64 :=
  if v2 = 0 then
    1
  else
    let temp : Int32 := (exp v1 (v2 / 2)).toUInt32.toInt32
    if v2 % 2 = 0 then
      (temp * temp).toInt64.toUInt64
    else
      v1 * temp.toInt64.toUInt64 * temp.toInt64.toUInt64
  termination_by v2.toNat
  decreasing_by
    rename_i nonzero
    have positive : v2.toNat ≠ 0 := fun zero => nonzero (UInt64.toNat_inj.mp zero)
    have half : (v2 / 2).toNat = v2.toNat / 2 := UInt64.toNat_div v2 2
    omega

/-- `MCLVirtualMachine::Neg`, compiled to a product that wraps. -/
def neg (v1 : UInt64) : UInt64 := (v1.toInt64 * -1).toUInt64

/-- `MCLVirtualMachine::LowerThan`. -/
def lowerThan (v1 v2 : UInt64) : Bool := v1 < v2

/-- `MCLVirtualMachine::LowerEqual`. -/
def lowerEqual (v1 v2 : UInt64) : Bool := v1 ≤ v2

/-- `MCLVirtualMachine::GreaterThan`. -/
def greaterThan (v1 v2 : UInt64) : Bool := v2 < v1

/-- `MCLVirtualMachine::GreaterEqual`. -/
def greaterEqual (v1 v2 : UInt64) : Bool := v2 ≤ v1

/-- `MCLVirtualMachine::Equal`. -/
def equal (v1 v2 : UInt64) : Bool := v1 = v2

/-- `MCLVirtualMachine::Not`. -/
def not (v1 : UInt64) : UInt64 := ~~~v1

end IotChain.VM
