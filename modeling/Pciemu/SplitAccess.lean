import Pciemu.RegisterFile

namespace Pciemu.Device

open Bytes AuroraHw

/-- A guest write as the memory core passes it on: the value zero-extended from `size` bytes. -/
def mmioWrite (bus : Bus) (m : Machine) (bar : Bar) (addr val : UInt64) (size : ℕ) : Machine :=
  barWrite bus m bar addr (lowBytes size val) size

def mmioRead (m : Machine) (bar : Bar) (addr : UInt64) (size : ℕ) : UInt64 :=
  lowBytes size (barRead m bar addr size)

def lowHalf (v : UInt64) : UInt64 := v &&& 0xffffffff

def highHalf (v : UInt64) : UInt64 := v >>> 32

def splitWrite (bus : Bus) (m : Machine) (bar : Bar) (i : ℕ) (v : UInt64) (lowFirst : Bool) : Machine :=
  let low (m : Machine) := mmioWrite bus m bar (scratchAddr i) (lowHalf v) 4
  let high (m : Machine) := mmioWrite bus m bar (scratchAddr i + 4) (highHalf v) 4
  if lowFirst then high (low m) else low (high m)

def WritesAgree (bus : Bus) (m : Machine) (bar : Bar) (i : ℕ) (v : UInt64) (lowFirst : Bool) : Prop :=
  ∀ j < regbarRegCnt, (splitWrite bus m bar i v lowFirst).reg j = (mmioWrite bus m bar (scratchAddr i) v 8).reg j

def ReadsAgree (m : Machine) (bar : Bar) (i : ℕ) : Prop :=
  mmioRead m bar (scratchAddr i) 4 = lowHalf (mmioRead m bar (scratchAddr i) 8) ∧
    mmioRead m bar (scratchAddr i + 4) 4 = highHalf (mmioRead m bar (scratchAddr i) 8)

instance (bus : Bus) (m : Machine) (bar : Bar) (i : ℕ) (v : UInt64) (lowFirst : Bool) :
    Decidable (WritesAgree bus m bar i v lowFirst) := inferInstanceAs (Decidable (∀ j < _, _))

instance (m : Machine) (bar : Bar) (i : ℕ) : Decidable (ReadsAgree m bar i) := inferInstanceAs (Decidable (_ ∧ _))

theorem lowHalf_toNat (v : UInt64) : (lowHalf v).toNat = v.toNat % 2 ^ 32 := by
  have hm : (0xffffffff : UInt64).toNat = 2 ^ 32 - 1 := by decide
  rw [lowHalf, UInt64.toNat_and, hm, Nat.and_two_pow_sub_one_eq_mod]

theorem highHalf_toNat (v : UInt64) : (highHalf v).toNat = v.toNat / 2 ^ 32 := by
  rw [highHalf, UInt64.toNat_shiftRight, Nat.shiftRight_eq_div_pow]
  rfl

theorem lowBytes_four (v : UInt64) : lowBytes 4 v = lowHalf v := by
  apply UInt64.toNat.inj
  rw [lowBytes_toNat, lowHalf_toNat]
  rfl

theorem lowHalf_lowHalf (v : UInt64) : lowHalf (lowHalf v) = lowHalf v := by
  apply UInt64.toNat.inj
  rw [lowHalf_toNat, lowHalf_toNat, Nat.mod_mod]

theorem lowHalf_eq_self_iff (v : UInt64) : lowHalf v = v ↔ v.toNat < 2 ^ 32 := by
  rw [← UInt64.toNat_inj, lowHalf_toNat]
  constructor
  · intro h
    rw [← h]
    exact Nat.mod_lt _ (by decide)
  · exact Nat.mod_eq_of_lt

section Register

variable (bus : Bus) (m : Machine) (bar : Bar) {i : ℕ} (hi : i < regbarRegCnt)

include hi

theorem decode_upper : decode (scratchAddr i + 4) = .hole := by
  revert i
  decide

theorem upper_valid : auroraRegbarValidAccess (scratchAddr i + 4) = true := by
  revert i
  decide

theorem mmioWrite_scratch (v : UInt64) (size : ℕ) :
    mmioWrite bus m bar (scratchAddr i) v size = m.setReg i (lowBytes size v) := by
  rw [mmioWrite, barWrite_eq, (decode_scratch hi _).mpr rfl, writeReg]

theorem mmioWrite_upper (v : UInt64) (size : ℕ) : mmioWrite bus m bar (scratchAddr i + 4) v size = m := by
  rw [mmioWrite, barWrite_eq, decode_upper hi, writeReg]

theorem splitWrite_eq (v : UInt64) (lowFirst : Bool) :
    splitWrite bus m bar i v lowFirst = m.setReg i (lowHalf v) := by
  cases lowFirst with
  | true => simp [splitWrite, mmioWrite_scratch _ _ _ hi, mmioWrite_upper _ _ _ hi, lowBytes_four, lowHalf_lowHalf]
  | false => simp [splitWrite, mmioWrite_scratch _ _ _ hi, mmioWrite_upper _ _ _ hi, lowBytes_four, lowHalf_lowHalf]

theorem mmioRead_scratch (size : ℕ) : mmioRead m bar (scratchAddr i) size = lowBytes size (m.reg i) := by
  rw [mmioRead, barRead_eq, (decode_scratch hi _).mpr rfl, readReg]

theorem mmioRead_upper (size : ℕ) : mmioRead m bar (scratchAddr i + 4) size = lowBytes size (~~~0) := by
  rw [mmioRead, barRead_eq, decode_upper hi]
  exact congrArg (lowBytes size) (if_pos (upper_valid hi))

theorem writesAgree_iff (v : UInt64) (lowFirst : Bool) :
    WritesAgree bus m bar i v lowFirst ↔ v.toNat < 2 ^ 32 := by
  rw [WritesAgree, splitWrite_eq bus m bar hi, mmioWrite_scratch bus m bar hi, lowBytes_eight]
  constructor
  · intro h
    have hreg := h i hi
    rw [reg_setReg, reg_setReg] at hreg
    exact (lowHalf_eq_self_iff v).mp hreg
  · intro h j _
    rw [(lowHalf_eq_self_iff v).mpr h]

theorem readsAgree_iff : ReadsAgree m bar i ↔ 0xffffffff00000000 ≤ (m.reg i).toNat := by
  have hv := (m.reg i).toNat_lt
  have hones : lowBytes 4 (~~~0) = 0xffffffff := by decide
  rw [ReadsAgree, mmioRead_scratch m bar hi, mmioRead_scratch m bar hi, mmioRead_upper m bar hi, lowBytes_eight,
    lowBytes_four, hones]
  have hhigh : 0xffffffff = highHalf (m.reg i) ↔ 0xffffffff = (m.reg i).toNat / 2 ^ 32 := by
    rw [← UInt64.toNat_inj, highHalf_toNat]
    rfl
  rw [hhigh, eq_self, true_and]
  omega

end Register

theorem split_access_iff (bus : Bus) (m : Machine) (bar : Bar) (i : ℕ) (hi : i < regbarRegCnt) (v : UInt64)
    (lowFirst : Bool) : (WritesAgree bus m bar i v lowFirst ↔ v.toNat < 2 ^ 32) ∧
      (ReadsAgree m bar i ↔ 0xffffffff00000000 ≤ (m.reg i).toNat) :=
  ⟨writesAgree_iff bus m bar hi v lowFirst, readsAgree_iff m bar hi⟩

theorem split_access_low :
    let m := run copyBus (pciemuDeviceInit zeroEngine fun _ => 0) [.write .reg reg1 0xffffffff00000007 8]
    WritesAgree copyBus m .internal 1 0x80000000 false ∧ ReadsAgree m .internal 1 := by
  intro m
  have h := split_access_iff copyBus m .internal 1 (by decide) 0x80000000 false
  exact ⟨h.1.mpr (by decide), h.2.mpr (by decide)⟩

theorem split_access_differs :
    let m := run copyBus (pciemuDeviceInit zeroEngine fun _ => 0) [.write .reg reg0 5 8]
    ¬WritesAgree copyBus m .reg 0 0x100000002 true ∧ (splitWrite copyBus m .reg 0 0x100000002 true).reg 0 = 2 ∧
      ¬ReadsAgree m .reg 0 ∧ mmioRead m .reg (scratchAddr 0 + 4) 4 = 0xffffffff := by
  intro m
  exact ⟨by decide, by decide, by decide, by decide⟩

end Pciemu.Device
