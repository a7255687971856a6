import Mathlib.Data.List.TakeWhile
import Mathlib.Tactic

namespace Pciemu.Numerals

theorem digitChar_inj {a b : ℕ} (ha : a < 16) (hb : b < 16) (h : a.digitChar = b.digitChar) : a = b := by
  have hall : ∀ a < 16, ∀ b < 16, a.digitChar = b.digitChar → a = b := by decide
  exact hall a ha b hb h

theorem toDigits_two_bases {b c : ℕ} (hb : 1 < b) (hbc : b < c) (hc : c ≤ 16) (n m : ℕ)
    (h : Nat.toDigits b n = Nat.toDigits c m) : n < b ∧ m = n ∨ b ≤ n ∧ n < m := by
  -- on the number whose digits are taken in the smaller base
  induction n using Nat.strongRecOn generalizing m with
  | ind n ih =>
    have hone (k d : ℕ) (hk : 1 < k) : (Nat.toDigits k d).length ≤ 1 ↔ d < k := by
      rw [Nat.length_toDigits_le_iff hk (by decide), pow_one]
    have hlen : n < b ↔ m < c := by rw [← hone b n hb, ← hone c m (by omega), h]
    by_cases hn : n < b
    · have hm := hlen.mp hn
      rw [Nat.toDigits_of_lt_base hn, Nat.toDigits_of_lt_base hm, List.cons.injEq] at h
      exact .inl ⟨hn, (digitChar_inj (by omega) (by omega) h.1).symm⟩
    · have hm : ¬m < c := fun hm => hn (hlen.mpr hm)
      have hnb : Nat.toDigits b n = Nat.toDigits b (n / b) ++ [(n % b).digitChar] :=
        Nat.toDigits_of_base_le hb (not_lt.mp hn)
      have hmc : Nat.toDigits c m = Nat.toDigits c (m / c) ++ [(m % c).digitChar] :=
        Nat.toDigits_of_base_le (by omega) (not_lt.mp hm)
      rw [hnb, hmc, List.append_singleton_inj] at h
      have hdigit : n % b = m % c := by
        apply digitChar_inj _ _ h.2
        · exact (Nat.mod_lt n (by omega)).trans (by omega)
        · exact (Nat.mod_lt m (by omega)).trans_le hc
      have hle : n / b ≤ m / c := by
        rcases ih (n / b) (Nat.div_lt_self (by omega) hb) (m / c) h.1 with ⟨-, he⟩ | ⟨-, hlt⟩
        · omega
        · omega
      have hpos : 0 < m / c := Nat.div_pos (by omega) (by omega)
      refine .inr ⟨by omega, ?_⟩
      calc n = b * (n / b) + n % b := (Nat.div_add_mod n b).symm
        _ ≤ b * (m / c) + m % c := by rw [hdigit]; gcongr
        _ < c * (m / c) + m % c := by gcongr
        _ = m := Nat.div_add_mod m c

theorem notMem_toDigits_ten {c : Char} (h : c.isDigit = false) (n : ℕ) : c ∉ Nat.toDigits 10 n := by
  intro hmem
  have hd := Nat.isDigit_of_mem_toDigits (by decide) (by decide) hmem
  rw [h] at hd
  cases hd

theorem toDigits_inj {b : ℕ} (hb : 1 < b) (hb' : b ≤ 16) {n m : ℕ} (h : Nat.toDigits b n = Nat.toDigits b m) :
    n = m := by
  induction n using Nat.strongRecOn generalizing m with
  | ind n ih =>
    have hone (d : ℕ) : (Nat.toDigits b d).length ≤ 1 ↔ d < b := by
      rw [Nat.length_toDigits_le_iff hb (by decide), pow_one]
    have hlen : n < b ↔ m < b := by rw [← hone, ← hone, h]
    by_cases hn : n < b
    · have hm := hlen.mp hn
      rw [Nat.toDigits_of_lt_base hn, Nat.toDigits_of_lt_base hm, List.cons.injEq] at h
      exact digitChar_inj (by omega) (by omega) h.1
    · have hm : ¬m < b := fun hm => hn (hlen.mpr hm)
      rw [Nat.toDigits_of_base_le hb (not_lt.mp hn), Nat.toDigits_of_base_le hb (not_lt.mp hm),
        List.append_singleton_inj] at h
      have hdigit : n % b = m % b := by
        apply digitChar_inj _ _ h.2
        · exact (Nat.mod_lt n (by omega)).trans_le hb'
        · exact (Nat.mod_lt m (by omega)).trans_le hb'
      have hrest := ih (n / b) (Nat.div_lt_self (by omega) hb) h.1
      rw [← Nat.div_add_mod n b, ← Nat.div_add_mod m b, hrest, hdigit]

def reread (b c n : ℕ) : ℕ := Nat.ofDigits c (Nat.digits b n)

section Reread

variable {b c n : ℕ}

theorem reread_of_lt (h : n < b) : reread b c n = n := by
  rcases Nat.eq_zero_or_pos n with rfl | hn
  · rw [reread, Nat.digits_zero, Nat.ofDigits_nil]
  · rw [reread, Nat.digits_of_lt b n hn.ne' h, Nat.ofDigits_singleton]

variable (hb : 1 < b)

include hb

theorem reread_of_le (h : b ≤ n) : reread b c n = c * reread b c (n / b) + n % b := by
  rw [reread, Nat.digits_def' hb (by omega), Nat.ofDigits_cons, Nat.add_comm, reread]

theorem toDigits_reread (hbc : b ≤ c) (n : ℕ) :
    Nat.toDigits c (reread b c n) = Nat.toDigits b n ∧ (0 < n → 0 < reread b c n) := by
  induction n using Nat.strongRecOn with
  | ind n ih =>
    by_cases hn : n < b
    · rw [reread_of_lt hn, Nat.toDigits_of_lt_base hn, Nat.toDigits_of_lt_base (hn.trans_le hbc)]
      exact ⟨rfl, id⟩
    · have hle := not_lt.mp hn
      obtain ⟨hdigits, hpos⟩ := ih (n / b) (Nat.div_lt_self (by omega) hb)
      have hpos := hpos (Nat.div_pos hle (by omega))
      have hlast := Nat.mod_lt n (show 0 < b by omega)
      rw [reread_of_le hb hle]
      refine ⟨?_, fun _ => Nat.add_pos_left (Nat.mul_pos (by omega) hpos) _⟩
      rw [← Nat.toDigits_append_toDigits (by omega) hpos (hlast.trans_le hbc), hdigits,
        Nat.toDigits_of_lt_base (hlast.trans_le hbc), Nat.toDigits_of_base_le hb hle]

theorem toDigits_eq_iff (hbc : b ≤ c) (hc : c ≤ 16) (n m : ℕ) :
    Nat.toDigits b n = Nat.toDigits c m ↔ m = reread b c n := by
  rw [← (toDigits_reread hb hbc n).1]
  constructor
  · exact fun h => (toDigits_inj (by omega) hc h).symm
  · rintro rfl
    rfl

end Reread

def ascii (s : String) : List UInt8 := s.toList.map Char.toUInt8

def isSpace (b : UInt8) : Bool := b = 32 || 9 ≤ b && b ≤ 13

def isDigit (b : UInt8) : Bool := 48 ≤ b && b ≤ 57

def digitVal (b : UInt8) : ℕ :=
  if isDigit b then b.toNat - 48
  else if 97 ≤ b && b ≤ 122 then b.toNat - 87
  else if 65 ≤ b && b ≤ 90 then b.toNat - 55
  else 36

def digitsOf (base : ℕ) (s : List UInt8) : List UInt8 := s.takeWhile fun b => digitVal b < base

def valueOf (base : ℕ) (ds : List UInt8) : ℕ := ds.foldl (fun n b => base * n + digitVal b) 0

def sign : List UInt8 → ℤ × List UInt8
  | [] => (1, [])
  | b :: s => if b = 45 then (-1, s) else if b = 43 then (1, s) else (1, b :: s)

/-- `strtol` to base ten: a value out of range is cut off at the bounds of `long`. -/
def strtol (s : List UInt8) : ℤ :=
  let r := sign (s.dropWhile isSpace)
  max (-2 ^ 63) (min (2 ^ 63 - 1) (r.1 * valueOf 10 (digitsOf 10 r.2)))

/-- The offset of `endptr`: behind the digits, or the start of the text if there are none. -/
def strtolEnd (s : List UInt8) : ℕ :=
  let r := sign (s.dropWhile isSpace)
  if digitsOf 10 r.2 = [] then 0 else s.length - (r.2.length - (digitsOf 10 r.2).length)

def strtolErange (s : List UInt8) : Bool :=
  let r := sign (s.dropWhile isSpace)
  r.1 * valueOf 10 (digitsOf 10 r.2) < -2 ^ 63 || 2 ^ 63 - 1 < r.1 * valueOf 10 (digitsOf 10 r.2)

def atoi (s : List UInt8) : ℤ := (strtol s).bmod (2 ^ 32)

def htons (n : ℤ) : ℕ := (n % 2 ^ 16).toNat

def strtoul (s : List UInt8) : ℕ × List UInt8 :=
  let r : ℕ × List UInt8 := match s with
    | b :: c :: d :: t =>
      if b = 48 && (c = 120 || c = 88) && digitVal d < 16 then (16, d :: t) else if b = 48 then (8, s) else (10, s)
    | b :: _ => if b = 48 then (8, s) else (10, s)
    | [] => (10, s)
  (valueOf r.1 (digitsOf r.1 r.2), r.2.drop (digitsOf r.1 r.2).length)

/-- Numbers and dots: all numbers but the last are one byte, the last one fills the bytes that are left. -/
def inetAton (acc : ℕ) : ℕ → List UInt8 → Option ℕ
  | 0, _ => none
  | n + 1, s =>
    if !(s.head?.any isDigit) then none
    else
      let r := strtoul s
      match r.2 with
      | [] => if r.1 < 256 ^ (n + 1) then some (acc * 256 ^ (n + 1) + r.1) else none
      | c :: rest =>
        if c = 46 then if r.1 < 256 then inetAton (256 * acc + r.1) n rest else none
        else if isSpace c && r.1 < 256 ^ (n + 1) then some (acc * 256 ^ (n + 1) + r.1) else none

def inaddrNone : ℕ := 0xffffffff

def inetAddr (s : List UInt8) : ℕ := (inetAton 0 4 s).getD inaddrNone

def Denotes (s : List UInt8) (n : ℕ) : Prop := s ≠ [] ∧ s.all isDigit ∧ valueOf 10 s = n

def printed (n : ℕ) : List UInt8 := (Nat.toDigits 10 n).map Char.toUInt8

theorem printed_denotes (n : ℕ) : Denotes (printed n) n := by
  have hdigit : ∀ d < 10, isDigit d.digitChar.toUInt8 ∧ digitVal d.digitChar.toUInt8 = d := by decide
  induction n using Nat.strongRecOn with
  | ind n ih =>
    by_cases hn : n < 10
    · obtain ⟨hd, hv⟩ := hdigit n hn
      rw [printed, Nat.toDigits_of_lt_base hn]
      exact ⟨by simp, by simp [hd], by simp [valueOf, hv]⟩
    · obtain ⟨hne, hall, hval⟩ := ih (n / 10) (by omega)
      obtain ⟨hd, hv⟩ := hdigit (n % 10) (Nat.mod_lt n (by decide))
      have hsplit : printed n = printed (n / 10) ++ [(n % 10).digitChar.toUInt8] := by
        rw [printed, Nat.toDigits_of_base_le (by decide) (not_lt.mp hn), List.map_append]
        rfl
      rw [valueOf] at hval
      rw [hsplit]
      refine ⟨by simp, by simp [hall, hd], ?_⟩
      rw [valueOf, List.foldl_append, hval, List.foldl_cons, List.foldl_nil, hv, Nat.div_add_mod]

theorem isDigit_iff (b : UInt8) : isDigit b ↔ 48 ≤ b.toNat ∧ b.toNat ≤ 57 := by
  simp [isDigit, UInt8.le_iff_toNat_le]

theorem digitVal_lt_ten {b : UInt8} (h : isDigit b) : digitVal b < 10 := by
  have hb := (isDigit_iff b).mp h
  rw [digitVal, if_pos h]
  omega

theorem digit_not_space {b : UInt8} (h : isDigit b) : isSpace b = false := by
  have hb := (isDigit_iff b).mp h
  simp only [isSpace, Bool.or_eq_false_iff, Bool.and_eq_false_iff, decide_eq_false_iff_not, UInt8.le_iff_toNat_le,
    ← UInt8.toNat_inj, UInt8.reduceToNat]
  omega

theorem sign_digit {b : UInt8} (h : isDigit b) (s : List UInt8) : sign (b :: s) = (1, b :: s) := by
  have hb := (isDigit_iff b).mp h
  have hminus : b ≠ 45 := by
    rintro rfl
    exact absurd hb.1 (by decide)
  have hplus : b ≠ 43 := by
    rintro rfl
    exact absurd hb.1 (by decide)
  rw [sign, if_neg hminus, if_neg hplus]

theorem digitsOf_line {s : List UInt8} (h : s.all isDigit) : digitsOf 10 (s ++ [10]) = s := by
  rw [List.all_eq_true] at h
  have hall : ∀ b ∈ s, decide (digitVal b < 10) = true := fun b hb => decide_eq_true (digitVal_lt_ten (h b hb))
  have hend : [10].takeWhile (fun b => decide (digitVal b < 10)) = [] := by decide
  rw [digitsOf, List.takeWhile_append_of_pos hall, hend, List.append_nil]

theorem strtol_denotes {s : List UInt8} {n : ℕ} (h : Denotes s n) (hn : n < 2 ^ 63) : strtol (s ++ [10]) = n := by
  obtain ⟨hne, hdigits, hval⟩ := h
  have hsign : sign ((s ++ [10]).dropWhile isSpace) = (1, s ++ [10]) := by
    obtain ⟨b, t, rfl⟩ := List.exists_cons_of_ne_nil hne
    have hb := List.all_eq_true.mp hdigits b List.mem_cons_self
    rw [List.cons_append, List.dropWhile_cons_of_neg (by simp [digit_not_space hb]), sign_digit hb]
  rw [strtol, hsign, digitsOf_line hdigits, hval]
  omega

theorem port_denotes {s : List UInt8} {n : ℕ} (h : Denotes s n) (hn : n ≤ 65535) : htons (atoi (s ++ [10])) = n := by
  have hmod : (n : ℤ).bmod (2 ^ 32) = n := Int.bmod_eq_of_le (by omega) (by omega)
  rw [atoi, strtol_denotes h (by omega), hmod, htons]
  omega

def DenotesInt (s : List UInt8) (z : ℤ) : Prop :=
  ∃ t n, Denotes t n ∧ (s = t ∧ z = n ∨ s = 43 :: t ∧ z = n ∨ s = 45 :: t ∧ z = -n)

def numberIn (s : List UInt8) : Option ℤ :=
  let r := sign (s.dropWhile isSpace)
  if digitsOf 10 r.2 = [] then none else some (r.1 * valueOf 10 (digitsOf 10 r.2))

theorem digitVal_lt_ten_iff (b : UInt8) : digitVal b < 10 ↔ isDigit b := by
  constructor
  · intro h
    by_contra hd
    unfold digitVal at h
    simp only [UInt8.le_iff_toNat_le, Bool.and_eq_true, decide_eq_true_eq, UInt8.reduceToNat] at h
    split_ifs at h <;> omega
  · exact digitVal_lt_ten

theorem digitsOf_eq_self_iff (s : List UInt8) : digitsOf 10 s = s ↔ s.all isDigit := by
  rw [digitsOf, List.takeWhile_eq_self_iff, List.all_eq_true]
  simp only [decide_eq_true_eq, digitVal_lt_ten_iff]

theorem sign_cases (s : List UInt8) : sign s = (1, s) ∨
    (∃ t, s = 43 :: t ∧ sign s = (1, t)) ∨ ∃ t, s = 45 :: t ∧ sign s = (-1, t) := by
  cases s with
  | nil => exact .inl rfl
  | cons b s =>
    rw [sign]
    split_ifs with hminus hplus
    · exact .inr (.inr ⟨s, by rw [hminus], rfl⟩)
    · exact .inr (.inl ⟨s, by rw [hplus], rfl⟩)
    · exact .inl rfl

theorem sign_length (s : List UInt8) : (sign s).2.length ≤ s.length := by
  rcases sign_cases s with h | ⟨t, rfl, h⟩ | ⟨t, rfl, h⟩
  · rw [h]
  · rw [h]
    exact Nat.le_succ _
  · rw [h]
    exact Nat.le_succ _

section Reading

variable {s : List UInt8}

theorem numberIn_none (h : numberIn s = none) : strtolEnd s = 0 := by
  simp only [numberIn] at h
  split_ifs at h with hd
  exact if_pos hd

theorem numberIn_some {z : ℤ} (h : numberIn s = some z) : strtolEnd s ≠ 0 ∧
    strtol s = max (-2 ^ 63) (min (2 ^ 63 - 1) z) ∧ (strtolErange s = true ↔ z < -2 ^ 63 ∨ 2 ^ 63 - 1 < z) := by
  have hsign := sign_length (s.dropWhile isSpace)
  have hdrop := (List.dropWhile_sublist isSpace (l := s)).length_le
  have hdigits := (List.takeWhile_sublist (fun b => decide (digitVal b < 10))
    (l := (sign (s.dropWhile isSpace)).2)).length_le
  simp only [numberIn] at h
  split_ifs at h with hd
  cases h
  refine ⟨?_, rfl, by simp [strtolErange]⟩
  have hpos := List.length_pos_iff.mpr hd
  simp only [strtolEnd, if_neg hd]
  unfold digitsOf at hpos ⊢
  omega

theorem strtolEnd_le (s : List UInt8) : strtolEnd s ≤ s.length := by
  simp only [strtolEnd]
  split_ifs
  · exact Nat.zero_le _
  · exact Nat.sub_le _ _

theorem dropWhile_space (h : s.head?.any isSpace = false) : s.dropWhile isSpace = s := by
  cases s with
  | nil => rfl
  | cons b s => exact List.dropWhile_cons_of_neg (by simpa using h)

theorem numberIn_signed {t : List UInt8} {k : ℤ} {n : ℕ} (hs : sign (s.dropWhile isSpace) = (k, t))
    (h : Denotes t n) : numberIn s = some (k * n) ∧ strtolEnd s = s.length := by
  obtain ⟨hne, hdigits, hval⟩ := h
  have hself := (digitsOf_eq_self_iff t).mpr hdigits
  simp only [numberIn, strtolEnd, hs, hself, if_neg hne, hval, Nat.sub_self, Nat.sub_zero, and_self]

theorem DenotesInt.reading {z : ℤ} (h : DenotesInt s z) :
    numberIn s = some z ∧ s.head?.any isSpace = false ∧ strtolEnd s = s.length := by
  obtain ⟨t, n, hn, h⟩ := h
  have hread {k : ℤ} (hspace : s.head?.any isSpace = false) (hs : sign s = (k, t)) (hz : z = k * n) :
      numberIn s = some z ∧ s.head?.any isSpace = false ∧ strtolEnd s = s.length := by
    obtain ⟨hnum, hend⟩ := numberIn_signed (by rw [dropWhile_space hspace, hs]) hn
    exact ⟨hz ▸ hnum, hspace, hend⟩
  rcases h with ⟨rfl, hz⟩ | ⟨rfl, hz⟩ | ⟨rfl, hz⟩
  · obtain ⟨b, t, rfl⟩ := List.exists_cons_of_ne_nil hn.1
    have hb := List.all_eq_true.mp hn.2.1 b List.mem_cons_self
    exact hread (digit_not_space hb) (sign_digit hb t) (by rw [hz, one_mul])
  · exact hread rfl rfl (by rw [hz, one_mul])
  · exact hread rfl rfl (by rw [hz, neg_one_mul])

theorem denotesInt_iff (z : ℤ) : DenotesInt s z ↔
    numberIn s = some z ∧ s.head?.any isSpace = false ∧ strtolEnd s = s.length := by
  constructor
  · exact DenotesInt.reading
  · rintro ⟨hnum, hspace, hend⟩
    have hlen := sign_length s
    simp only [numberIn, strtolEnd, dropWhile_space hspace] at hnum hend
    split_ifs at hnum with hd
    rw [if_neg hd] at hend
    cases hnum
    have hne : (sign s).2 ≠ [] := by
      intro he
      exact hd (by rw [he]; rfl)
    have hpos := List.length_pos_iff.mpr hne
    have hself : digitsOf 10 (sign s).2 = (sign s).2 :=
      (List.takeWhile_sublist _).eq_of_length_le (by unfold digitsOf at hend; omega)
    rw [hself]
    have hden : Denotes (sign s).2 (valueOf 10 (sign s).2) := ⟨hne, (digitsOf_eq_self_iff _).mp hself, rfl⟩
    refine ⟨_, _, hden, ?_⟩
    rcases sign_cases s with hs | ⟨t, ht, hs⟩ | ⟨t, ht, hs⟩
    · rw [hs]
      exact .inl ⟨rfl, one_mul _⟩
    · rw [hs]
      exact .inr (.inl ⟨ht, one_mul _⟩)
    · rw [hs]
      exact .inr (.inr ⟨ht, neg_one_mul _⟩)

end Reading

end Pciemu.Numerals
