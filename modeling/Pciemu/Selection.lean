import Pciemu.Userspace

namespace Pciemu.NodeName

open Numerals

abbrev hex (n : ℕ) : List Char := Nat.toDigits 16 n

theorem hex_one {n : ℕ} (h : n < 16) : hex n = [n.digitChar] := Nat.toDigits_of_lt_base h

theorem hex_more {n : ℕ} (h : 16 ≤ n) : hex n = hex (n / 16) ++ [(n % 16).digitChar] :=
  Nat.toDigits_of_base_le (by decide) h

theorem hex_two {n : ℕ} (h : 16 ≤ n) (h' : n < 256) : hex n = [(n / 16).digitChar, (n % 16).digitChar] := by
  rw [hex_more h, hex_one (by omega)]
  rfl

theorem hex_inj {n m : ℕ} : hex n = hex m ↔ n = m :=
  ⟨toDigits_inj (by decide) (by decide), congrArg hex⟩

theorem hex_append_b {n m : ℕ} : hex n = hex m ++ ['b'] ↔ 0 < m ∧ n = 16 * m + 0xb := by
  have hb : ['b'] = hex 0xb := rfl
  constructor
  · intro h
    have hlen : ¬(hex n).length ≤ 1 := by
      rw [h, List.length_append]
      have hpos : 0 < (hex m).length := Nat.length_toDigits_pos
      simp only [List.length_singleton]
      omega
    have hle : 16 ≤ n := by
      rw [Nat.length_toDigits_le_iff (by decide) (by decide)] at hlen
      omega
    rw [hex_more hle, List.append_singleton_inj] at h
    have hrest := hex_inj.mp h.1
    have hlast : n % 16 = 0xb := digitChar_inj (by omega) (by decide) h.2
    omega
  · rintro ⟨hm, rfl⟩
    rw [hb]
    exact (Nat.toDigits_append_toDigits (by decide) hm (by decide)).symm

theorem digits_split {xs xs' : List Char} {c : Char} {n n' : ℕ} (hlen : (hex n).length = (hex n').length) :
    xs ++ c :: hex n = xs' ++ c :: hex n' ↔ xs = xs' ∧ n = n' := by
  constructor
  · intro h
    obtain ⟨hxs, hn⟩ := List.append_inj' h (by rw [List.length_cons, List.length_cons, hlen])
    exact ⟨hxs, hex_inj.mp (List.cons.inj hn).2⟩
  · rintro ⟨rfl, rfl⟩
    rfl

theorem domain_bus_shifted {a b a' b' : ℕ} (hb : b < 16) (hle : 16 ≤ b') (hb' : b' < 256) :
    hex a ++ 'b' :: hex b = hex a' ++ 'b' :: hex b' ↔ 0 < a' ∧ a = 16 * a' + 0xb ∧ b' = 0xb0 + b := by
  have hassoc : hex a' ++ 'b' :: hex b' = (hex a' ++ ['b']) ++ hex b' := by simp
  rw [hassoc, hex_one hb, hex_two hle hb']
  constructor
  · intro h
    obtain ⟨hdomain, hbus⟩ := List.append_inj' h rfl
    obtain ⟨hfirst, hlast⟩ := List.cons.inj hbus
    have hhigh : 0xb = b' / 16 := digitChar_inj (by decide) (by omega) hfirst
    have hlow : b = b' % 16 := digitChar_inj hb (by omega) (List.cons.inj hlast).1
    obtain ⟨hpos, ha⟩ := hex_append_b.mp hdomain
    exact ⟨hpos, ha, by omega⟩
  · rintro ⟨hpos, ha, rfl⟩
    have hhigh : (0xb0 + b) / 16 = 0xb := by omega
    have hlow : (0xb0 + b) % 16 = b := by omega
    rw [hex_append_b.mpr ⟨hpos, ha⟩, hhigh, hlow]
    simp [Nat.digitChar]

theorem hex_length {n : ℕ} (h : n < 256) : (hex n).length = if n < 16 then 1 else 2 := by
  split_ifs with hn
  · rw [hex_one hn]
    rfl
  · rw [hex_two (not_lt.mp hn) h]
    rfl

theorem domain_bus_split {a b a' b' : ℕ} (hb : b < 256) (hb' : b' < 256) :
    hex a ++ 'b' :: hex b = hex a' ++ 'b' :: hex b' ↔ (a = a' ∧ b = b') ∨
      (0 < a ∧ a' = 16 * a + 0xb ∧ b = 0xb0 + b' ∧ b' < 16) ∨ 0 < a' ∧ a = 16 * a' + 0xb ∧ b' = 0xb0 + b ∧ b < 16 := by
  by_cases hsmall : b < 16
  · by_cases hsmall' : b' < 16
    · rw [digits_split (by rw [hex_length hb, hex_length hb', if_pos hsmall, if_pos hsmall'])]
      rw [hex_inj]
      omega
    · rw [domain_bus_shifted hsmall (not_lt.mp hsmall') hb']
      omega
  · by_cases hsmall' : b' < 16
    · rw [eq_comm, domain_bus_shifted hsmall' (not_lt.mp hsmall) hb]
      omega
    · rw [digits_split (by rw [hex_length hb, hex_length hb', if_neg hsmall, if_neg hsmall'])]
      rw [hex_inj]
      omega

theorem device_split {xs xs' : List Char} {n n' : ℕ} (hn : n < 32) (hn' : n' < 32) :
    xs ++ 'd' :: hex n = xs' ++ 'd' :: hex n' ↔ xs = xs' ∧ n = n' := by
  -- two digits begin with a one, which is not the separator
  have hmixed {xs xs' : List Char} {n n' : ℕ} (hn : n < 16) (hle : 16 ≤ n') (hn' : n' < 32) :
      xs ++ 'd' :: hex n ≠ xs' ++ 'd' :: hex n' := by
    have hassoc : xs' ++ 'd' :: hex n' = (xs' ++ ['d']) ++ hex n' := by simp
    have hone : n' / 16 = 1 := by omega
    rw [hassoc, hex_one hn, hex_two hle (by omega), hone]
    intro h
    have hd := (List.cons.inj (List.append_inj' h rfl).2).1
    revert hd
    decide
  by_cases hsmall : n < 16
  · by_cases hsmall' : n' < 16
    · exact digits_split (by rw [hex_length (by omega), hex_length (by omega), if_pos hsmall, if_pos hsmall'])
    · refine iff_of_false (hmixed hsmall (not_lt.mp hsmall') hn') ?_
      omega
  · by_cases hsmall' : n' < 16
    · refine iff_of_false (hmixed hsmall' (not_lt.mp hsmall) hn).symm ?_
      omega
    · exact digits_split (by rw [hex_length (by omega), hex_length (by omega), if_neg hsmall, if_neg hsmall'])

theorem func_split {xs xs' : List Char} {n n' : ℕ} (hn : n < 8) (hn' : n' < 8) :
    xs ++ 'f' :: hex n = xs' ++ 'f' :: hex n' ↔ xs = xs' ∧ n = n' :=
  digits_split (by rw [hex_one (by omega), hex_one (by omega)]; rfl)

structure Shifted (l l' : Location) : Prop where
  domain_pos : 0 < l.domain
  domain : l'.domain = 16 * l.domain + 0xb
  bus : l.bus = 0xb0 + l'.bus
  bus_lt : l'.bus < 16
  device : l.device = l'.device
  func : l.func = l'.func

theorem names_clash_iff (l l' : Location) :
    pciemuProbeName l = pciemuProbeName l' ↔ l = l' ∨ Shifted l l' ∨ Shifted l' l := by
  have hassoc (l : Location) : formatted 16 l =
      'd' :: (((hex l.domain ++ 'b' :: hex l.bus) ++ 'd' :: hex l.device) ++ 'f' :: hex l.func) := by
    simp only [formatted, List.append_assoc, List.cons_append]
  rw [pciemuProbeName, pciemuProbeName, List.append_left_inj, List.append_left_inj, hassoc, hassoc, List.cons.injEq,
    func_split l.func_lt l'.func_lt, device_split l.device_lt l'.device_lt, domain_bus_split l.bus_lt l'.bus_lt]
  constructor
  · rintro ⟨-, ⟨⟨hd, hb⟩ | ⟨hpos, hd, hb, hlt⟩ | ⟨hpos, hd, hb, hlt⟩, hs⟩, hf⟩
    · exact .inl (Location.ext hd hb hs hf)
    · exact .inr (.inl ⟨hpos, hd, hb, hlt, hs, hf⟩)
    · exact .inr (.inr ⟨hpos, hd, hb, hlt, hs.symm, hf.symm⟩)
  · rintro (rfl | h | h)
    · exact ⟨rfl, ⟨.inl ⟨rfl, rfl⟩, rfl⟩, rfl⟩
    · exact ⟨rfl, ⟨.inr (.inl ⟨h.domain_pos, h.domain, h.bus, h.bus_lt⟩), h.device⟩, h.func⟩
    · exact ⟨rfl, ⟨.inr (.inr ⟨h.domain_pos, h.domain, h.bus, h.bus_lt⟩), h.device.symm⟩, h.func.symm⟩

end Pciemu.NodeName

namespace Pciemu.Userspace

open NodeName Numerals Arguments
open AuroraHw (regbarRegCnt)

def numberOf (l : Location) (regs : ℕ) : Opt → ℕ
  | .b => l.bus
  | .d => l.domain
  | .r => regs
  | .s => l.device

/-- The options name the location in decimal, in any order and as often as they like; what has a
default may be left out. -/
structure Asks (gs : List Given) (l : Location) (regs : ℕ) : Prop where
  text : ∀ g ∈ gs, g.text = printed (numberOf l regs g.opt)
  bus : IsGiven gs .b
  slot : IsGiven gs .s
  domain : IsGiven gs .d ∨ l.domain = 0
  count : IsGiven gs .r ∨ regs = regbarRegCnt
  count_range : InRange regs .r
  func : l.func = 0

section Asks

variable {gs : List Given} {l : Location} {regs : ℕ} (h : Asks gs l regs)

include h

theorem Asks.inRange (o : Opt) : InRange (numberOf l regs o) o := by
  have hdomain := l.domain_lt
  have hbus := l.bus_lt
  have hdevice := l.device_lt
  cases o with
  | b =>
    simp only [InRange, numberOf]
    omega
  | d =>
    simp only [InRange, numberOf]
    omega
  | r => exact h.count_range
  | s =>
    simp only [InRange, numberOf]
    omega

theorem Asks.accepted {g : Given} (hg : g ∈ gs) : Accepted g ∧ g.field = numberOf l regs g.opt := by
  have hdenotes : DenotesInt g.text (numberOf l regs g.opt) :=
    ⟨_, _, printed_denotes _, .inl ⟨h.text g hg, rfl⟩⟩
  obtain ⟨hacc, hfield⟩ := denotes_accepted hdenotes (h.inRange g.opt)
  exact ⟨hacc, Int.ofNat.inj hfield⟩

theorem Asks.get (o : Opt) : (assign defaults gs).get o = numberOf l regs o := by
  rw [assign_get]
  cases hl : lastGiven gs o with
  | some g =>
    obtain ⟨hg, rfl⟩ := lastGiven_mem hl
    exact (h.accepted hg).2
  | none =>
    have hnot := lastGiven_none hl
    cases o with
    | b => exact absurd h.bus hnot
    | s => exact absurd h.slot hnot
    | d => exact (h.domain.resolve_left hnot).symm
    | r => exact (h.count.resolve_left hnot).symm

theorem Asks.parsed (name : List UInt8) : parseArgs (commandLine name gs) = .ok (assign defaults gs) := by
  have hadm : Admitted gs := ⟨fun g hg => (h.accepted hg).1, h.bus, h.slot⟩
  rcases parseArgs_cases name gs with ⟨-, hok⟩ | ⟨hnot, -⟩
  · exact hok
  · exact absurd hadm hnot

end Asks

theorem filename_location {ctx : Context} {l : Location} (hd : ctx.pciDomainNb = l.domain) (hb : ctx.pciBusNb = l.bus)
    (hs : ctx.pciDeviceNb = l.device) (hf : ctx.pciFuncNb = l.func) : filename ctx = some (openPciemuDevFilename l) := by
  rw [filename, dif_pos ⟨hd ▸ l.domain_lt, hb ▸ l.bus_lt, hs ▸ l.device_lt, hf ▸ l.func_lt⟩]
  exact congrArg (some ∘ openPciemuDevFilename) (Location.ext hd hb hs hf)

theorem filename_node_iff (l l' : Location) : openPciemuDevFilename l = nodePath l' ↔
    l'.domain = reread 10 16 l.domain ∧ l'.bus = reread 10 16 l.bus ∧ l'.device = reread 10 16 l.device ∧
      l'.func = reread 10 16 l.func := by
  have hdigits (n m : ℕ) : Nat.toDigits 10 n = Nat.toDigits 16 m ↔ m = reread 10 16 n :=
    toDigits_eq_iff (by decide) (by decide) (by decide) n m
  rw [filename_eq, nodePath_eq, List.append_left_inj, List.append_right_inj, ← hdigits, ← hdigits, ← hdigits, ← hdigits]
  constructor
  · exact formatted_split
  · rintro ⟨hd, hb, hs, hf⟩
    rw [formatted, formatted, hd, hb, hs, hf]

theorem options_select (name : List UInt8) (gs : List Given) (l : Location) (regs : ℕ) (h : Asks gs l regs) :
    ∃ ctx, parseArgs (commandLine name gs) = .ok ctx ∧ (∀ o, ctx.get o = numberOf l regs o) ∧
      ctx.pciHwBarLen = 8 * regs ∧
      ∀ l', filename ctx = some (nodePath l') ↔ l'.domain = reread 10 16 l.domain ∧ l'.bus = reread 10 16 l.bus ∧
        l'.device = reread 10 16 l.device ∧ l'.func = 0 := by
  have hparsed := h.parsed name
  have hget := h.get
  refine ⟨_, hparsed, hget, ?_, ?_⟩
  · exact (parseArgs_location hparsed).1.barLen.trans (congrArg (8 * ·) (hget .r))
  · intro l'
    have hfunc : reread 10 16 l.func = 0 := by rw [h.func, reread_of_lt (by decide)]
    rw [filename_location (l := l) (hget .d) (hget .b) (hget .s) ((assign_func gs).trans h.func.symm), Option.some_inj,
      filename_node_iff, hfunc]

theorem options_select_sixteen :
    let l : Location := ⟨0, 16, 3, 0, by decide, by decide, by decide, by decide⟩
    let l' : Location := ⟨0, 22, 3, 0, by decide, by decide, by decide, by decide⟩
    let gs : List Given := [⟨.s, ascii "3", true, by decide⟩, ⟨.b, ascii "16", false, by decide⟩]
    Asks gs l 4 ∧ ∃ ctx, parseArgs (commandLine (ascii "pciemu") gs) = .ok ctx ∧ filename ctx = some (nodePath l') := by
  intro l l' gs
  have hasks : Asks gs l 4 := by
    refine ⟨?_, ⟨_, List.mem_cons_of_mem _ List.mem_cons_self, rfl⟩, ⟨_, List.mem_cons_self, rfl⟩, .inr rfl, .inr rfl,
      ⟨by decide, by decide⟩, rfl⟩
    intro g hg
    rcases List.mem_pair.mp hg with rfl | rfl
    · decide
    · decide
  obtain ⟨ctx, hparse, -, -, hnode⟩ := options_select (ascii "pciemu") gs l 4 hasks
  exact ⟨hasks, ctx, hparse, (hnode l').mpr ⟨by decide, by decide, by decide, rfl⟩⟩

end Pciemu.Userspace
