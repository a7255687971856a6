import Pciemu.Numerals

namespace Pciemu.NodeName

open Numerals

@[ext]
structure Location where
  domain : ℕ
  bus : ℕ
  device : ℕ
  func : ℕ
  domain_lt : domain < 2 ^ 16
  bus_lt : bus < 2 ^ 8
  device_lt : device < 2 ^ 5
  func_lt : func < 2 ^ 3

def formatted (base : ℕ) (l : Location) : List Char :=
  'd' :: (Nat.toDigits base l.domain ++ 'b' :: (Nat.toDigits base l.bus ++ 'd' :: (Nat.toDigits base l.device ++
    'f' :: Nat.toDigits base l.func)))

def pciemuProbeName (l : Location) : List Char := formatted 16 l ++ "_bar".toList ++ Nat.toDigits 10 0

def pciemuDevnode (devName : List Char) : List Char := "pciemu/".toList ++ devName

/-- `snprintf` stores 63 characters at most. -/
def openPciemuDevFilename (l : Location) : List Char :=
  ("/dev/pciemu/".toList ++ formatted 10 l ++ "_bar0".toList).take 63

def nodePath (l : Location) : List Char := "/dev/".toList ++ pciemuDevnode (pciemuProbeName l)

def NamesAgree (l : Location) : Prop :=
  openPciemuDevFilename l = nodePath l ∧ ∀ l', l' ≠ l → pciemuProbeName l' ≠ pciemuProbeName l

theorem filename_eq (l : Location) :
    openPciemuDevFilename l = "/dev/pciemu/".toList ++ formatted 10 l ++ "_bar0".toList := by
  have hd : (Nat.toDigits 10 l.domain).length ≤ 5 :=
    (Nat.length_toDigits_le_iff (by decide) (by decide)).mpr (l.domain_lt.trans (by decide))
  have hb : (Nat.toDigits 10 l.bus).length ≤ 3 :=
    (Nat.length_toDigits_le_iff (by decide) (by decide)).mpr (l.bus_lt.trans (by decide))
  have hs : (Nat.toDigits 10 l.device).length ≤ 2 :=
    (Nat.length_toDigits_le_iff (by decide) (by decide)).mpr (l.device_lt.trans (by decide))
  have hf : (Nat.toDigits 10 l.func).length ≤ 1 :=
    (Nat.length_toDigits_le_iff (by decide) (by decide)).mpr (l.func_lt.trans (by decide))
  have hp : "/dev/pciemu/".toList.length = 12 := by decide
  have ht : "_bar0".toList.length = 5 := by decide
  apply List.take_of_length_le
  simp only [formatted, List.length_append, List.length_cons, hp, ht]
  omega

theorem nodePath_eq (l : Location) : nodePath l = "/dev/pciemu/".toList ++ formatted 16 l ++ "_bar0".toList := by
  have hp : "/dev/".toList ++ "pciemu/".toList = "/dev/pciemu/".toList := by decide
  have ht : "_bar".toList ++ Nat.toDigits 10 0 = "_bar0".toList := by decide
  have hassoc (a b c d e : List Char) : a ++ (b ++ (c ++ d ++ e)) = (a ++ b) ++ c ++ (d ++ e) := by
    simp only [List.append_assoc]
  calc nodePath l = ("/dev/".toList ++ "pciemu/".toList) ++ formatted 16 l ++ ("_bar".toList ++ Nat.toDigits 10 0) :=
        hassoc _ _ _ _ _
    _ = "/dev/pciemu/".toList ++ formatted 16 l ++ "_bar0".toList :=
        congrArg₂ (fun start stop => start ++ formatted 16 l ++ stop) hp ht

theorem formatted_split {l l' : Location} (h : formatted 10 l = formatted 16 l') :
    Nat.toDigits 10 l.domain = Nat.toDigits 16 l'.domain ∧ Nat.toDigits 10 l.bus = Nat.toDigits 16 l'.bus ∧
      Nat.toDigits 10 l.device = Nat.toDigits 16 l'.device ∧ Nat.toDigits 10 l.func = Nat.toDigits 16 l'.func := by
  have hb (n : ℕ) : 'b' ∉ Nat.toDigits 10 n := notMem_toDigits_ten (by decide) n
  have hd (n : ℕ) : 'd' ∉ Nat.toDigits 10 n := notMem_toDigits_ten (by decide) n
  have hf (n : ℕ) : 'f' ∉ Nat.toDigits 10 n := notMem_toDigits_ten (by decide) n
  rw [formatted, formatted, List.cons.injEq] at h
  obtain ⟨hdomain, -, h⟩ := (List.append_cons_inj_of_notMem (hb _) (by simp [hb])).mp h.2
  obtain ⟨hbus, -, h⟩ := (List.append_cons_inj_of_notMem (hd _) (by simp [hd])).mp h
  obtain ⟨hdevice, -, hfunc⟩ := (List.append_cons_inj_of_notMem (hf _) (by simp [hf])).mp h
  exact ⟨hdomain, hbus, hdevice, hfunc⟩

theorem digits_small {n : ℕ} (h : n < 10) : Nat.toDigits 10 n = Nat.toDigits 16 n := by
  rw [Nat.toDigits_of_lt_base h, Nat.toDigits_of_lt_base (by omega)]

theorem digits_agree {n m : ℕ} (h : Nat.toDigits 10 n = Nat.toDigits 16 m) : n < 10 ∧ m = n ∨ 10 ≤ n ∧ n < m :=
  toDigits_two_bases (by decide) (by decide) (by decide) n m h

theorem formatted_small {l : Location} (hd : l.domain < 10) (hb : l.bus < 10) (hs : l.device < 10) :
    formatted 10 l = formatted 16 l := by
  have hf : l.func < 10 := l.func_lt.trans (by decide)
  rw [formatted, formatted, digits_small hd, digits_small hb, digits_small hs, digits_small hf]

theorem names_agree_iff (l : Location) : NamesAgree l ↔ l.domain < 10 ∧ l.bus < 10 ∧ l.device < 10 := by
  constructor
  · rintro ⟨h, -⟩
    rw [filename_eq, nodePath_eq, List.append_left_inj, List.append_right_inj] at h
    obtain ⟨hd, hb, hs, -⟩ := formatted_split h
    have hone (n : ℕ) (hn : Nat.toDigits 10 n = Nat.toDigits 16 n) : n < 10 := by
      rcases digits_agree hn with ⟨hlt, -⟩ | ⟨-, hlt⟩
      · exact hlt
      · omega
    exact ⟨hone _ hd, hone _ hb, hone _ hs⟩
  · rintro ⟨hd, hb, hs⟩
    have hsmall := formatted_small hd hb hs
    constructor
    · rw [filename_eq, nodePath_eq, hsmall]
    · intro l' hne he
      rw [pciemuProbeName, pciemuProbeName, List.append_left_inj, List.append_left_inj, ← hsmall] at he
      obtain ⟨hd', hb', hs', hf'⟩ := formatted_split he.symm
      have hsame {n m : ℕ} (hn : n < 10) (h : Nat.toDigits 10 n = Nat.toDigits 16 m) : m = n := by
        rcases digits_agree h with ⟨-, he⟩ | ⟨hle, -⟩
        · exact he
        · omega
      have hf : l.func < 10 := l.func_lt.trans (by decide)
      exact hne (Location.ext (hsame hd hd') (hsame hb hb') (hsame hs hs') (hsame hf hf'))

theorem names_differ :
    let l : Location := ⟨0, 16, 3, 0, by decide, by decide, by decide, by decide⟩
    let l₁ : Location := ⟨1, 0xb2, 3, 0, by decide, by decide, by decide, by decide⟩
    let l₂ : Location := ⟨0x1b, 2, 3, 0, by decide, by decide, by decide, by decide⟩
    ¬NamesAgree l ∧ openPciemuDevFilename l = "/dev/pciemu/d0b16d3f0_bar0".toList ∧
      nodePath l = "/dev/pciemu/d0b10d3f0_bar0".toList ∧
      l₁ ≠ l₂ ∧ pciemuProbeName l₁ = pciemuProbeName l₂ ∧ pciemuProbeName l₁ = "d1bb2d3f0_bar0".toList := by
  intro l l₁ l₂
  have hl : openPciemuDevFilename l = "/dev/pciemu/d0b16d3f0_bar0".toList := by decide
  have hn : nodePath l = "/dev/pciemu/d0b10d3f0_bar0".toList := by decide
  refine ⟨?_, hl, hn, ?_, by decide, by decide⟩
  · rintro ⟨h, -⟩
    rw [hl, hn] at h
    exact absurd h (by decide)
  · intro h
    exact absurd (congrArg Location.domain h) (by decide)

end Pciemu.NodeName
