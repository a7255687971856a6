import Mathlib.Tactic

/-!
Memories are functions from an index to a cell. `splice` is the one way to
overwrite a range; `natAt` reads a little-endian number of a given width.
-/

namespace Pciemu.Bytes

variable {β : Type*}

def splice (mem : ℕ → β) (ofs len : ℕ) (src : ℕ → β) : ℕ → β :=
  fun i => if ofs ≤ i ∧ i < ofs + len then src (i - ofs) else mem i

theorem splice_inside (mem src : ℕ → β) (ofs len i : ℕ) (h : i < len) :
    splice mem ofs len src (ofs + i) = src i := by
  have hi : ofs ≤ ofs + i ∧ ofs + i < ofs + len := ⟨by omega, by omega⟩
  rw [splice, if_pos hi, Nat.add_sub_cancel_left]

theorem splice_outside (mem src : ℕ → β) (ofs len i : ℕ) (h : i < ofs ∨ ofs + len ≤ i) :
    splice mem ofs len src i = mem i := by
  have hi : ¬(ofs ≤ i ∧ i < ofs + len) := by omega
  rw [splice, if_neg hi]

theorem splice_congr (mem src src' : ℕ → β) (ofs len : ℕ) (h : ∀ i < len, src i = src' i) :
    splice mem ofs len src = splice mem ofs len src' := by
  funext i
  by_cases hi : ofs ≤ i ∧ i < ofs + len
  · simp only [splice, hi, and_self, if_true]
    exact h _ (by omega)
  · simp only [splice, hi, if_false]

theorem splice_agree (mem mem' src : ℕ → β) (ofs len i : ℕ) (h : mem i = mem' i) :
    splice mem ofs len src i = splice mem' ofs len src i := by
  simp only [splice, h]

def natAt (mem : ℕ → UInt8) (ofs : ℕ) : ℕ → ℕ
  | 0 => 0
  | n + 1 => (mem ofs).toNat + 256 * natAt mem (ofs + 1) n

theorem natAt_congr (mem mem' : ℕ → UInt8) (ofs n : ℕ)
    (h : ∀ i < n, mem (ofs + i) = mem' (ofs + i)) : natAt mem ofs n = natAt mem' ofs n := by
  induction n generalizing ofs with
  | zero => rfl
  | succ n ih =>
    have h0 : mem ofs = mem' ofs := h 0 (by omega)
    have ht := ih (ofs + 1) (fun i hi => by
      have := h (i + 1) (by omega)
      rwa [show ofs + (i + 1) = ofs + 1 + i by omega] at this)
    simp only [natAt, h0, ht]

def byteOf (v i : ℕ) : UInt8 := UInt8.ofNat (v / 256 ^ i)

theorem natAt_byteOf (mem : ℕ → UInt8) (ofs n v : ℕ)
    (h : ∀ i < n, mem (ofs + i) = byteOf v i) : natAt mem ofs n = v % 256 ^ n := by
  induction n generalizing ofs v with
  | zero => simp [natAt, Nat.mod_one]
  | succ n ih =>
    have h0 : mem ofs = byteOf v 0 := h 0 (by omega)
    have ht := ih (ofs + 1) (v / 256) (fun i hi => by
      have hs := h (i + 1) (by omega)
      rw [show ofs + (i + 1) = ofs + 1 + i by omega] at hs
      rw [hs, byteOf, byteOf, pow_succ', Nat.div_div_eq_div_mul])
    have hlow : (byteOf v 0).toNat = v % 256 := by simp [byteOf]
    rw [natAt, h0, hlow, ht, pow_succ', Nat.mod_mul]

theorem natAt_lt (mem : ℕ → UInt8) (ofs n : ℕ) : natAt mem ofs n < 256 ^ n := by
  induction n generalizing ofs with
  | zero => simp [natAt]
  | succ n ih =>
    have hb := (mem ofs).toNat_lt
    have ht := ih (ofs + 1)
    rw [natAt, pow_succ']
    omega

theorem natAt_add (mem : ℕ → UInt8) (ofs n k : ℕ) :
    natAt mem ofs (n + k) = natAt mem ofs n + 256 ^ n * natAt mem (ofs + n) k := by
  induction n generalizing ofs with
  | zero => simp [natAt]
  | succ n ih =>
    rw [show n + 1 + k = n + k + 1 by omega, natAt, natAt, ih, show ofs + 1 + n = ofs + (n + 1) by omega]
    ring

theorem natAt_mod (mem : ℕ → UInt8) (ofs n k : ℕ) (h : n ≤ k) : natAt mem ofs k % 256 ^ n = natAt mem ofs n := by
  obtain ⟨j, rfl⟩ := Nat.exists_eq_add_of_le h
  rw [natAt_add, Nat.add_mul_mod_self_left, Nat.mod_eq_of_lt (natAt_lt mem ofs n)]

theorem byteOf_mod (v n i : ℕ) (h : i < n) : byteOf (v % 256 ^ n) i = byteOf v i := by
  have hdvd : 256 ∣ 256 ^ (n - i) := dvd_pow_self 256 (by omega)
  apply UInt8.toNat.inj
  rw [byteOf, byteOf, UInt8.toNat_ofNat', UInt8.toNat_ofNat']
  calc v % 256 ^ n / 256 ^ i % 256 = v % (256 ^ i * 256 ^ (n - i)) / 256 ^ i % 256 := by
        rw [← pow_add, Nat.add_sub_cancel' (Nat.le_of_lt h)]
    _ = v / 256 ^ i % 256 ^ (n - i) % 256 := by rw [Nat.mod_mul_right_div_self]
    _ = v / 256 ^ i % 256 := Nat.mod_mod_of_dvd _ hdvd

theorem byteOf_above (v n i : ℕ) (h : n ≤ i) : byteOf (v % 256 ^ n) i = 0 := by
  have hlt : v % 256 ^ n < 256 ^ i :=
    (Nat.mod_lt _ (Nat.pow_pos (by decide))).trans_le (Nat.pow_le_pow_right (by decide) h)
  rw [byteOf, Nat.div_eq_of_lt hlt]
  rfl

def wordAt (mem : ℕ → UInt8) (ofs : ℕ) : UInt64 := UInt64.ofNat (natAt mem ofs 8)

def storeWord (mem : ℕ → UInt8) (ofs : ℕ) (v : UInt64) : ℕ → UInt8 :=
  splice mem ofs 8 (byteOf v.toNat)

theorem wordAt_storeWord (mem : ℕ → UInt8) (ofs : ℕ) (v : UInt64) :
    wordAt (storeWord mem ofs v) ofs = v := by
  have hn := natAt_byteOf (storeWord mem ofs v) ofs 8 v.toNat
    (fun i hi => splice_inside mem (byteOf v.toNat) ofs 8 i hi)
  have hv := v.toNat_lt
  rw [wordAt, hn, Nat.mod_eq_of_lt (by omega), UInt64.ofNat_toNat]

theorem wordAt_congr (mem mem' : ℕ → UInt8) (ofs : ℕ)
    (h : ∀ i < 8, mem (ofs + i) = mem' (ofs + i)) : wordAt mem ofs = wordAt mem' ofs := by
  rw [wordAt, wordAt, natAt_congr mem mem' ofs 8 h]

theorem wordAt_storeWord_of_disjoint (mem : ℕ → UInt8) (ofs ofs' : ℕ) (v : UInt64)
    (h : ofs + 8 ≤ ofs' ∨ ofs' + 8 ≤ ofs) :
    wordAt (storeWord mem ofs v) ofs' = wordAt mem ofs' := by
  apply wordAt_congr
  intro i hi
  exact splice_outside _ _ _ _ _ (by omega)

def lowBytes (n : ℕ) (v : UInt64) : UInt64 := UInt64.ofNat (v.toNat % 256 ^ n)

@[simp] theorem lowBytes_toNat (n : ℕ) (v : UInt64) : (lowBytes n v).toNat = v.toNat % 256 ^ n := by
  have hle : v.toNat % 256 ^ n ≤ v.toNat := Nat.mod_le _ _
  have hv := v.toNat_lt
  exact UInt64.toNat_ofNat_of_lt' (lt_of_le_of_lt hle hv)

theorem lowBytes_eight (v : UInt64) : lowBytes 8 v = v := by
  apply UInt64.toNat.inj
  have hv := v.toNat_lt
  rw [lowBytes_toNat, Nat.mod_eq_of_lt (by omega)]

theorem lowBytes_wordAt (mem : ℕ → UInt8) (ofs n : ℕ) (h : n ≤ 8) :
    (lowBytes n (wordAt mem ofs)).toNat = natAt mem ofs n := by
  have hlt : natAt mem ofs 8 < UInt64.size := natAt_lt mem ofs 8
  rw [lowBytes_toNat, wordAt, UInt64.toNat_ofNat_of_lt' hlt, natAt_mod mem ofs n 8 h]

end Pciemu.Bytes
