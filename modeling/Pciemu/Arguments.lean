import Pciemu.AuroraHw
import Pciemu.Getopt
import Pciemu.NodeName

namespace Pciemu.Arguments

open AuroraHw Getopt NodeName Numerals

def pciDomainNumberInvalid : ℕ := 1 <<< 16

def pciBusNumberInvalid : ℕ := 1 <<< 8

def pciDeviceNumberInvalid : ℕ := 1 <<< 5

def pciFunctionNumberInvalid : ℕ := 1 <<< 3

structure Context where
  pciDomainNb : ℕ
  pciBusNb : ℕ
  pciHwBarLen : ℕ
  pciHwRegsNb : ℕ
  pciDeviceNb : ℕ
  pciFuncNb : ℕ
  verbosity : ℕ
  deriving DecidableEq

inductive Report
  | usage
  | invalidValue (optarg : List UInt8) (op : Char)
  | outOfRange (what : String) (value lo hi : ℕ)
  | mustBeProvided (what : String)
  deriving DecidableEq

structure Exit where
  status : ℤ
  report : Report
  deriving DecidableEq

structure Parser where
  errno : ℕ
  ctx : Context

def erange : ℕ := 34

def numberOption (op : Char) (width lo hi : ℕ) (what : String) (errno : ℕ) (optarg : List UInt8) :
    Except Exit (ℕ × ℕ) :=
  let field := (strtol optarg % 2 ^ width).toNat
  let errno := if strtolErange optarg then erange else errno
  if errno ≠ 0 ∨ strtolEnd optarg = 0 then .error ⟨-1, .invalidValue optarg op⟩
  else if field < lo ∨ hi < field then .error ⟨-1, .outOfRange what field lo hi⟩
  else .ok (errno, field)

def busOption : ℕ → List UInt8 → Except Exit (ℕ × ℕ) :=
  numberOption 'b' 16 0 (pciBusNumberInvalid - 1) "PCI bus number"

def domainOption : ℕ → List UInt8 → Except Exit (ℕ × ℕ) :=
  numberOption 'd' 32 0 (pciDomainNumberInvalid - 1) "PCI domain number"

def regsOption : ℕ → List UInt8 → Except Exit (ℕ × ℕ) :=
  numberOption 'r' 8 1 regbarRegCnt "number of registers"

def slotOption : ℕ → List UInt8 → Except Exit (ℕ × ℕ) :=
  numberOption 's' 8 0 (pciDeviceNumberInvalid - 1) "PCI device number"

def barLen (regs : ℕ) : ℕ := regs * 8 % 2 ^ 16

def step (p : Parser) : Item → Except Exit Parser
  | .arg c optarg =>
    if c = 'b'.toUInt8 then (busOption p.errno optarg).map fun r => ⟨r.1, { p.ctx with pciBusNb := r.2 }⟩
    else if c = 'd'.toUInt8 then (domainOption p.errno optarg).map fun r => ⟨r.1, { p.ctx with pciDomainNb := r.2 }⟩
    else if c = 'r'.toUInt8 then
      (regsOption p.errno optarg).map fun r => ⟨r.1, { p.ctx with pciHwRegsNb := r.2, pciHwBarLen := barLen r.2 }⟩
    else if c = 's'.toUInt8 then (slotOption p.errno optarg).map fun r => ⟨r.1, { p.ctx with pciDeviceNb := r.2 }⟩
    else .error ⟨-1, .usage⟩
  | .flag c =>
    if c = 'h'.toUInt8 then .error ⟨0, .usage⟩
    else if c = 'v'.toUInt8 then .ok { p with ctx := { p.ctx with verbosity := 1 } }
    else .error ⟨-1, .usage⟩
  | .bad => .error ⟨-1, .usage⟩

def defaults : Context where
  pciDomainNb := 0
  pciBusNb := pciBusNumberInvalid
  pciHwBarLen := barLen regbarRegCnt
  pciHwRegsNb := regbarRegCnt
  pciDeviceNb := pciDeviceNumberInvalid
  pciFuncNb := 0
  verbosity := 0

def provided (ctx : Context) : Except Exit Context :=
  if pciDeviceNumberInvalid ≤ ctx.pciDeviceNb then .error ⟨-1, .mustBeProvided "PCI device (slot) number"⟩
  else if pciBusNumberInvalid ≤ ctx.pciBusNb then .error ⟨-1, .mustBeProvided "PCI bus number"⟩
  else if pciDomainNumberInvalid ≤ ctx.pciDomainNb then .error ⟨-1, .mustBeProvided "PCI domain number"⟩
  else if pciFunctionNumberInvalid ≤ ctx.pciFuncNb then .error ⟨-1, .mustBeProvided "PCI function number"⟩
  else .ok ctx

def optstring : List UInt8 := ascii "b:d:hr:s:v"

-- `errno` is zero when the program starts
def parseArgs (argv : List (List UInt8)) : Except Exit Context := do
  let p ← (getopt optstring argv.tail).foldlM step ⟨0, defaults⟩
  provided p.ctx

inductive Opt
  | b
  | d
  | r
  | s
  deriving DecidableEq

def Opt.letter : Opt → UInt8
  | .b => 'b'.toUInt8
  | .d => 'd'.toUInt8
  | .r => 'r'.toUInt8
  | .s => 's'.toUInt8

def Opt.width : Opt → ℕ
  | .b => 16
  | .d => 32
  | .r => 8
  | .s => 8

def InRange (z : ℤ) : Opt → Prop
  | .b => 0 ≤ z ∧ z < 2 ^ 8
  | .d => 0 ≤ z ∧ z < 2 ^ 16
  | .r => 1 ≤ z ∧ z ≤ regbarRegCnt
  | .s => 0 ≤ z ∧ z < 2 ^ 5

def Context.get (ctx : Context) : Opt → ℕ
  | .b => ctx.pciBusNb
  | .d => ctx.pciDomainNb
  | .r => ctx.pciHwRegsNb
  | .s => ctx.pciDeviceNb

def Context.set (ctx : Context) (v : ℕ) : Opt → Context
  | .b => { ctx with pciBusNb := v }
  | .d => { ctx with pciDomainNb := v }
  | .r => { ctx with pciHwRegsNb := v, pciHwBarLen := barLen v }
  | .s => { ctx with pciDeviceNb := v }

/-- An option as it is given: `-b 3`, or `-b3`. -/
structure Given where
  opt : Opt
  text : List UInt8
  attached : Bool
  text_ne : attached = true → text ≠ []

def Given.written (g : Given) : Written := ⟨g.opt.letter, g.text, g.attached, g.text_ne⟩

def commandLine (name : List UInt8) (gs : List Given) : List (List UInt8) :=
  name :: (gs.map Given.written).flatMap Written.words

def IsGiven (gs : List Given) (o : Opt) : Prop := ∃ g ∈ gs, g.opt = o

def lastGiven (gs : List Given) (o : Opt) : Option Given := (gs.filter fun g => g.opt = o).getLast?

structure Valid (gs : List Given) : Prop where
  numerals : ∀ g ∈ gs, ∃ z, DenotesInt g.text z ∧ InRange z g.opt
  bus : IsGiven gs .b
  slot : IsGiven gs .s

structure SetBy (gs : List Given) (ctx : Context) : Prop where
  last : ∀ o g, lastGiven gs o = some g → DenotesInt g.text (ctx.get o)
  barLen : ctx.pciHwBarLen = 8 * ctx.pciHwRegsNb

def ArgumentsExact (name : List UInt8) (gs : List Given) : Prop :=
  match parseArgs (commandLine name gs) with
  | .ok ctx => Valid gs ∧ SetBy gs ctx
  | .error e => ¬Valid gs ∧ e.status ≠ 0

def Accepted (g : Given) : Prop :=
  ∃ z, numberIn g.text = some z ∧ -2 ^ 63 ≤ z ∧ z < 2 ^ 63 ∧ InRange (z % 2 ^ g.opt.width) g.opt

structure Admitted (gs : List Given) : Prop where
  accepted : ∀ g ∈ gs, Accepted g
  bus : IsGiven gs .b
  slot : IsGiven gs .s

def Misread (g : Given) : Prop :=
  g.text.head?.any isSpace ∨ strtolEnd g.text < g.text.length ∨ ∃ z, numberIn g.text = some z ∧ ¬InRange z g.opt

def Given.field (g : Given) : ℕ := (numberIn g.text).elim 0 fun z => (z % 2 ^ g.opt.width).toNat

def Given.item (g : Given) : Item := .arg g.opt.letter g.text

def assign (ctx : Context) (gs : List Given) : Context := gs.foldl (fun ctx g => ctx.set g.field g.opt) ctx

section Step

variable (op : Char) (width lo hi : ℕ) (what : String) {optarg : List UInt8}

theorem numberOption_none (h : numberIn optarg = none) :
    ∃ report, numberOption op width lo hi what 0 optarg = .error ⟨-1, report⟩ := by
  refine ⟨.invalidValue optarg op, ?_⟩
  simp only [numberOption, numberIn_none h, or_true, if_true]

theorem numberOption_overflow {z : ℤ} (h : numberIn optarg = some z) (hz : z < -2 ^ 63 ∨ 2 ^ 63 ≤ z) :
    ∃ report, numberOption op width lo hi what 0 optarg = .error ⟨-1, report⟩ := by
  obtain ⟨-, -, herange⟩ := numberIn_some h
  refine ⟨.invalidValue optarg op, ?_⟩
  have hne : erange ≠ 0 := by decide
  simp only [numberOption, herange.mpr (by omega), if_true, hne, ne_eq, not_false_eq_true, true_or]

theorem numberOption_some {z : ℤ} (h : numberIn optarg = some z) (hlo : -2 ^ 63 ≤ z) (hhi : z < 2 ^ 63) :
    numberOption op width lo hi what 0 optarg =
      if (z % 2 ^ width).toNat < lo ∨ hi < (z % 2 ^ width).toNat then
        .error ⟨-1, .outOfRange what (z % 2 ^ width).toNat lo hi⟩
      else .ok (0, (z % 2 ^ width).toNat) := by
  obtain ⟨hend, hval, herange⟩ := numberIn_some h
  have hfits : strtolErange optarg = false := Bool.eq_false_iff.mpr fun he => by
    have := herange.mp he
    omega
  have hz : strtol optarg = z := by omega
  simp only [numberOption, hfits, hz, hend, Bool.false_eq_true, if_false, ne_eq, not_true_eq_false, or_self]

end Step

def Opt.convert : Opt → ℕ → List UInt8 → Except Exit (ℕ × ℕ)
  | .b => busOption
  | .d => domainOption
  | .r => regsOption
  | .s => slotOption

theorem convert_range (o : Opt) : ∃ op lo hi what, o.convert = numberOption op o.width lo hi what ∧
    ∀ n : ℕ, InRange n o ↔ ¬(n < lo ∨ hi < n) := by
  cases o with
  | b =>
    refine ⟨_, _, _, _, rfl, fun n => ?_⟩
    have hhi : pciBusNumberInvalid - 1 = 255 := rfl
    simp only [InRange, hhi]
    omega
  | d =>
    refine ⟨_, _, _, _, rfl, fun n => ?_⟩
    have hhi : pciDomainNumberInvalid - 1 = 65535 := rfl
    simp only [InRange, hhi]
    omega
  | r =>
    refine ⟨_, _, _, _, rfl, fun n => ?_⟩
    simp only [InRange]
    omega
  | s =>
    refine ⟨_, _, _, _, rfl, fun n => ?_⟩
    have hhi : pciDeviceNumberInvalid - 1 = 31 := rfl
    simp only [InRange, hhi]
    omega

theorem field_eq {g : Given} {z : ℤ} (h : numberIn g.text = some z) : (g.field : ℤ) = z % 2 ^ g.opt.width := by
  rw [Given.field, h, Option.elim_some]
  exact Int.toNat_of_nonneg (Int.emod_nonneg z (by positivity))

theorem convert_cases (g : Given) : Accepted g ∧ g.opt.convert 0 g.text = .ok (0, g.field) ∨
    ¬Accepted g ∧ ∃ report, g.opt.convert 0 g.text = .error ⟨-1, report⟩ := by
  obtain ⟨op, lo, hi, what, hconvert, hrange⟩ := convert_range g.opt
  rw [hconvert]
  cases hnum : numberIn g.text with
  | none =>
    refine .inr ⟨?_, numberOption_none op _ lo hi what hnum⟩
    rintro ⟨z, hz, -⟩
    cases hnum.symm.trans hz
  | some z =>
    by_cases hfits : -2 ^ 63 ≤ z ∧ z < 2 ^ 63
    · have hfield : g.field = (z % 2 ^ g.opt.width).toNat := by rw [← field_eq hnum, Int.toNat_natCast]
      have haccepted : Accepted g ↔ InRange g.field g.opt := by
        rw [field_eq hnum]
        constructor
        · rintro ⟨z', hz', -, -, h⟩
          cases hnum.symm.trans hz'
          exact h
        · intro h
          exact ⟨z, hnum, hfits.1, hfits.2, h⟩
      rw [haccepted, hrange, numberOption_some op _ lo hi what hnum hfits.1 hfits.2, ← hfield]
      by_cases hout : g.field < lo ∨ hi < g.field
      · rw [if_pos hout]
        exact .inr ⟨not_not.mpr hout, _, rfl⟩
      · rw [if_neg hout]
        exact .inl ⟨hout, rfl⟩
    · refine .inr ⟨?_, numberOption_overflow op _ lo hi what hnum (by omega)⟩
      rintro ⟨z', hz', hlo, hhi, -⟩
      cases hnum.symm.trans hz'
      exact hfits ⟨hlo, hhi⟩

theorem step_arg (p : Parser) (o : Opt) (optarg : List UInt8) :
    step p (.arg o.letter optarg) = (o.convert p.errno optarg).map fun r => ⟨r.1, p.ctx.set r.2 o⟩ := by
  cases o <;> rfl

theorem run_cases (gs : List Given) (ctx : Context) :
    (∀ g ∈ gs, Accepted g) ∧ (gs.map Given.item).foldlM step ⟨0, ctx⟩ = .ok ⟨0, assign ctx gs⟩ ∨
      ¬(∀ g ∈ gs, Accepted g) ∧ ∃ report, (gs.map Given.item).foldlM step ⟨0, ctx⟩ = .error ⟨-1, report⟩ := by
  induction gs generalizing ctx with
  | nil => exact .inl ⟨fun g hg => absurd hg List.not_mem_nil, rfl⟩
  | cons g gs ih =>
    rw [List.map_cons, List.foldlM_cons, Given.item, step_arg, List.forall_mem_cons]
    rcases convert_cases g with ⟨hg, hok⟩ | ⟨hg, report, herr⟩
    · rw [hok]
      rcases ih (ctx.set g.field g.opt) with ⟨hgs, hrun⟩ | ⟨hgs, hrun⟩
      · exact .inl ⟨⟨hg, hgs⟩, hrun⟩
      · exact .inr ⟨fun h => hgs h.2, hrun⟩
    · rw [herr]
      exact .inr ⟨fun h => hg h.1, report, rfl⟩

theorem get_set (ctx : Context) (v : ℕ) (o o' : Opt) : (ctx.set v o).get o' = if o = o' then v else ctx.get o' := by
  cases o <;> cases o' <;> rfl

theorem lastGiven_append (gs : List Given) (g : Given) (o : Opt) :
    lastGiven (gs ++ [g]) o = if g.opt = o then some g else lastGiven gs o := by
  rw [lastGiven, List.filter_append]
  by_cases h : g.opt = o
  · simp [h]
  · simp [h, lastGiven]

theorem lastGiven_mem {gs : List Given} {o : Opt} {g : Given} (h : lastGiven gs o = some g) : g ∈ gs ∧ g.opt = o := by
  have hmem := List.mem_filter.mp (List.mem_of_getLast? h)
  exact ⟨hmem.1, of_decide_eq_true hmem.2⟩

theorem lastGiven_none {gs : List Given} {o : Opt} (h : lastGiven gs o = none) : ¬IsGiven gs o := by
  rintro ⟨g, hg, ho⟩
  have hnil := List.getLast?_eq_none_iff.mp h
  exact absurd (List.filter_eq_nil_iff.mp hnil g hg) (not_not.mpr (decide_eq_true ho))

theorem assign_append (ctx : Context) (gs : List Given) (g : Given) :
    assign ctx (gs ++ [g]) = (assign ctx gs).set g.field g.opt := by
  rw [assign, List.foldl_append]
  rfl

theorem assign_get (ctx : Context) (gs : List Given) (o : Opt) :
    (assign ctx gs).get o = (lastGiven gs o).elim (ctx.get o) Given.field := by
  induction gs using List.reverseRecOn with
  | nil => rfl
  | append_singleton gs g ih =>
    rw [assign_append, get_set, lastGiven_append]
    split_ifs
    · rfl
    · exact ih

theorem assign_func (gs : List Given) : (assign defaults gs).pciFuncNb = 0 := by
  refine List.foldlRecOn gs (fun ctx g => ctx.set g.field g.opt)
    (motive := fun ctx : Context => ctx.pciFuncNb = 0) rfl ?_
  intro ctx h g hg
  cases g.opt <;> exact h

theorem accepted_field {g : Given} (h : Accepted g) : InRange g.field g.opt := by
  obtain ⟨z, hz, -, -, hrange⟩ := h
  rw [field_eq hz]
  exact hrange

theorem assign_inRange {gs : List Given} (h : ∀ g ∈ gs, Accepted g) (ctx : Context) {o : Opt} (ho : IsGiven gs o) :
    InRange ((assign ctx gs).get o) o := by
  rw [assign_get]
  cases hl : lastGiven gs o with
  | none => exact absurd ho (lastGiven_none hl)
  | some g =>
    obtain ⟨hg, rfl⟩ := lastGiven_mem hl
    exact accepted_field (h g hg)

theorem assign_default {gs : List Given} (ctx : Context) {o : Opt} (ho : ¬IsGiven gs o) :
    (assign ctx gs).get o = ctx.get o := by
  rw [assign_get]
  cases hl : lastGiven gs o with
  | none => rfl
  | some g =>
    obtain ⟨hg, hopt⟩ := lastGiven_mem hl
    exact absurd ⟨g, hg, hopt⟩ ho

theorem provided_cases {gs : List Given} (h : ∀ g ∈ gs, Accepted g) :
    (IsGiven gs .b ∧ IsGiven gs .s) ∧ provided (assign defaults gs) = .ok (assign defaults gs) ∨
      ¬(IsGiven gs .b ∧ IsGiven gs .s) ∧ ∃ report, provided (assign defaults gs) = .error ⟨-1, report⟩ := by
  have hfunc : ¬pciFunctionNumberInvalid ≤ (assign defaults gs).pciFuncNb := by
    rw [assign_func]
    decide
  have hdomain : ¬pciDomainNumberInvalid ≤ (assign defaults gs).pciDomainNb := by
    change ¬65536 ≤ (assign defaults gs).get .d
    by_cases hd : IsGiven gs .d
    · have hrange : _ ∧ _ := assign_inRange h defaults hd
      omega
    · rw [assign_default defaults hd]
      decide
  have hdevice : pciDeviceNumberInvalid ≤ (assign defaults gs).pciDeviceNb ↔ ¬IsGiven gs .s := by
    change 32 ≤ (assign defaults gs).get .s ↔ _
    by_cases hs : IsGiven gs .s
    · have hrange : _ ∧ _ := assign_inRange h defaults hs
      exact iff_of_false (by omega) (not_not.mpr hs)
    · rw [assign_default defaults hs]
      exact iff_of_true (by decide) hs
  have hbus : pciBusNumberInvalid ≤ (assign defaults gs).pciBusNb ↔ ¬IsGiven gs .b := by
    change 256 ≤ (assign defaults gs).get .b ↔ _
    by_cases hb : IsGiven gs .b
    · have hrange : _ ∧ _ := assign_inRange h defaults hb
      exact iff_of_false (by omega) (not_not.mpr hb)
    · rw [assign_default defaults hb]
      exact iff_of_true (by decide) hb
  rw [provided, if_neg hdomain, if_neg hfunc]
  split_ifs with h1 h2
  · exact .inr ⟨fun hgiven => hdevice.mp h1 hgiven.2, _, rfl⟩
  · exact .inr ⟨fun hgiven => hbus.mp h2 hgiven.1, _, rfl⟩
  · exact .inl ⟨⟨not_not.mp fun hb => h2 (hbus.mpr hb), not_not.mp fun hs => h1 (hdevice.mpr hs)⟩, rfl⟩

theorem getopt_commandLine (name : List UInt8) (gs : List Given) :
    getopt optstring (commandLine name gs).tail = gs.map Given.item := by
  have hletter (o : Opt) : takes optstring o.letter = some true ∧ o.letter ≠ 45 := by cases o <;> decide
  have h := getopt_written optstring (gs.map Given.written) (by simp [Given.written, hletter]) []
  rw [List.append_nil, List.map_map] at h
  exact h.trans (List.append_nil _)

theorem parseArgs_cases (name : List UInt8) (gs : List Given) :
    Admitted gs ∧ parseArgs (commandLine name gs) = .ok (assign defaults gs) ∨
      ¬Admitted gs ∧ ∃ report, parseArgs (commandLine name gs) = .error ⟨-1, report⟩ := by
  rw [parseArgs, getopt_commandLine]
  rcases run_cases gs defaults with ⟨hgs, hrun⟩ | ⟨hgs, report, hrun⟩
  · rw [hrun]
    rcases provided_cases hgs with ⟨hgiven, hok⟩ | ⟨hgiven, herr⟩
    · exact .inl ⟨⟨hgs, hgiven.1, hgiven.2⟩, hok⟩
    · exact .inr ⟨fun h => hgiven ⟨h.bus, h.slot⟩, herr⟩
  · rw [hrun]
    exact .inr ⟨fun h => hgs h.accepted, report, rfl⟩

theorem inRange_fits {z : ℤ} {o : Opt} (h : InRange z o) : z % 2 ^ o.width = z ∧ -2 ^ 63 ≤ z ∧ z < 2 ^ 63 := by
  cases o with
  | b =>
    have hrange : _ ∧ _ := h
    simp only [Opt.width]
    omega
  | d =>
    have hrange : _ ∧ _ := h
    simp only [Opt.width]
    omega
  | r =>
    have hrange : _ ∧ _ := h
    simp only [Opt.width, regbarRegCnt] at hrange ⊢
    omega
  | s =>
    have hrange : _ ∧ _ := h
    simp only [Opt.width]
    omega

theorem denotes_accepted {g : Given} {z : ℤ} (h : DenotesInt g.text z) (hrange : InRange z g.opt) :
    Accepted g ∧ (g.field : ℤ) = z := by
  obtain ⟨hnum, -, -⟩ := h.reading
  obtain ⟨hmod, hlo, hhi⟩ := inRange_fits hrange
  exact ⟨⟨z, hnum, hlo, hhi, by rwa [hmod]⟩, (field_eq hnum).trans hmod⟩

theorem not_misread_iff {g : Given} (h : Accepted g) :
    ¬Misread g ↔ ∃ z, DenotesInt g.text z ∧ InRange z g.opt := by
  obtain ⟨z, hnum, -⟩ := h
  constructor
  · intro hm
    have hspace : g.text.head?.any isSpace = false := Bool.eq_false_iff.mpr fun hs => hm (.inl hs)
    have hend : strtolEnd g.text = g.text.length := by
      apply le_antisymm (strtolEnd_le g.text)
      exact not_lt.mp fun hlt => hm (.inr (.inl hlt))
    have hrange : InRange z g.opt := by
      by_contra hout
      exact hm (.inr (.inr ⟨z, hnum, hout⟩))
    exact ⟨z, (denotesInt_iff z).mpr ⟨hnum, hspace, hend⟩, hrange⟩
  · rintro ⟨z', hz', hrange⟩ hm
    obtain ⟨hnum', hspace, hend⟩ := hz'.reading
    rcases hm with hs | hlt | ⟨z'', hnum'', hout⟩
    · rw [hspace] at hs
      cases hs
    · exact absurd hend hlt.ne
    · cases hnum'.symm.trans hnum''
      exact hout hrange

theorem Valid.admitted {gs : List Given} (h : Valid gs) : Admitted gs := by
  refine ⟨?_, h.bus, h.slot⟩
  intro g hg
  obtain ⟨z, hz, hrange⟩ := h.numerals g hg
  exact (denotes_accepted hz hrange).1

theorem Valid.last {gs : List Given} (h : Valid gs) {o : Opt} {g : Given} (hl : lastGiven gs o = some g) :
    DenotesInt g.text ((assign defaults gs).get o) := by
  obtain ⟨z, hz, hrange⟩ := h.numerals g (lastGiven_mem hl).1
  rw [assign_get, hl, Option.elim_some, (denotes_accepted hz hrange).2]
  exact hz

theorem numberOption_ok {op : Char} {width lo hi : ℕ} {what : String} {errno : ℕ} {optarg : List UInt8}
    {r : ℕ × ℕ} (h : numberOption op width lo hi what errno optarg = .ok r) : ¬(r.2 < lo ∨ hi < r.2) := by
  simp only [numberOption] at h
  generalize (if strtolErange optarg = true then erange else errno) = e at h
  split_ifs at h with hbad hout
  cases h
  exact hout

theorem step_ok {p p' : Parser} {i : Item} (h : step p i = .ok p') :
    (∃ (o : Opt) (v : ℕ), InRange v o ∧ p'.ctx = p.ctx.set v o) ∨ p'.ctx = { p.ctx with verbosity := 1 } := by
  cases i with
  | arg c optarg =>
    by_cases hc : ∃ o : Opt, c = o.letter
    · obtain ⟨o, rfl⟩ := hc
      obtain ⟨op, lo, hi, what, hconvert, hrange⟩ := convert_range o
      rw [step_arg, hconvert] at h
      cases hn : numberOption op o.width lo hi what p.errno optarg with
      | error e =>
        rw [hn] at h
        cases h
      | ok r =>
        rw [hn] at h
        cases h
        exact .inl ⟨o, r.2, (hrange r.2).mpr (numberOption_ok hn), rfl⟩
    · have hb : c ≠ 'b'.toUInt8 := fun he => hc ⟨.b, he⟩
      have hd : c ≠ 'd'.toUInt8 := fun he => hc ⟨.d, he⟩
      have hr : c ≠ 'r'.toUInt8 := fun he => hc ⟨.r, he⟩
      have hs : c ≠ 's'.toUInt8 := fun he => hc ⟨.s, he⟩
      rw [step, if_neg hb, if_neg hd, if_neg hr, if_neg hs] at h
      cases h
  | flag c =>
    simp only [step] at h
    split_ifs at h
    cases h
    exact .inr rfl
  | bad => cases h

structure Consistent (ctx : Context) : Prop where
  regs : InRange ctx.pciHwRegsNb .r
  barLen : ctx.pciHwBarLen = 8 * ctx.pciHwRegsNb

theorem step_consistent {p p' : Parser} {i : Item} (hp : Consistent p.ctx) (h : step p i = .ok p') :
    Consistent p'.ctx := by
  rcases step_ok h with ⟨o, v, hv, hctx⟩ | hctx
  · rw [hctx]
    cases o with
    | r =>
      refine ⟨hv, ?_⟩
      have hrange : _ ∧ _ := hv
      simp only [regbarRegCnt] at hrange
      simp only [Context.set, barLen]
      omega
    | b => exact ⟨hp.regs, hp.barLen⟩
    | d => exact ⟨hp.regs, hp.barLen⟩
    | s => exact ⟨hp.regs, hp.barLen⟩
  · rw [hctx]
    exact ⟨hp.regs, hp.barLen⟩

theorem run_consistent (is : List Item) {p p' : Parser} (hp : Consistent p.ctx) (h : is.foldlM step p = .ok p') :
    Consistent p'.ctx := by
  induction is generalizing p with
  | nil =>
    cases h
    exact hp
  | cons i is ih =>
    rw [List.foldlM_cons] at h
    cases hs : step p i with
    | error e =>
      rw [hs] at h
      cases h
    | ok q =>
      rw [hs] at h
      exact ih (step_consistent hp hs) h

theorem provided_ok {ctx ctx' : Context} (h : provided ctx = .ok ctx') :
    ctx' = ctx ∧ ctx.pciDomainNb < 2 ^ 16 ∧ ctx.pciBusNb < 2 ^ 8 ∧ ctx.pciDeviceNb < 2 ^ 5 ∧ ctx.pciFuncNb < 2 ^ 3 := by
  simp only [provided] at h
  split_ifs at h with hdevice hbus hdomain hfunc
  cases h
  exact ⟨rfl, not_le.mp hdomain, not_le.mp hbus, not_le.mp hdevice, not_le.mp hfunc⟩

theorem parseArgs_location {argv : List (List UInt8)} {ctx : Context} (h : parseArgs argv = .ok ctx) :
    Consistent ctx ∧ ∃ l : Location, l.domain = ctx.pciDomainNb ∧ l.bus = ctx.pciBusNb ∧
      l.device = ctx.pciDeviceNb ∧ l.func = ctx.pciFuncNb := by
  rw [parseArgs] at h
  cases hrun : (getopt optstring argv.tail).foldlM step ⟨0, defaults⟩ with
  | error e =>
    rw [hrun] at h
    cases h
  | ok p =>
    rw [hrun] at h
    obtain ⟨rfl, hdomain, hbus, hdevice, hfunc⟩ := provided_ok h
    have hstart : Consistent defaults := ⟨⟨by decide, by decide⟩, by decide⟩
    exact ⟨run_consistent _ hstart hrun, ⟨_, _, _, _, hdomain, hbus, hdevice, hfunc⟩, rfl, rfl, rfl, rfl⟩

theorem arguments_exact_iff (name : List UInt8) (gs : List Given) :
    ArgumentsExact name gs ↔ ¬(Admitted gs ∧ ∃ g ∈ gs, Misread g) := by
  rw [ArgumentsExact]
  rcases parseArgs_cases name gs with ⟨hadm, hok⟩ | ⟨hadm, report, herr⟩
  · rw [hok]
    constructor
    · rintro ⟨hvalid, -⟩ ⟨-, g, hg, hm⟩
      exact (not_misread_iff (hadm.accepted g hg)).mpr (hvalid.numerals g hg) hm
    · intro h
      have hnumerals (g : Given) (hg : g ∈ gs) : ∃ z, DenotesInt g.text z ∧ InRange z g.opt :=
        (not_misread_iff (hadm.accepted g hg)).mp fun hm => h ⟨hadm, g, hg, hm⟩
      have hvalid : Valid gs := ⟨hnumerals, hadm.bus, hadm.slot⟩
      exact ⟨hvalid, fun o g => hvalid.last, (parseArgs_location hok).1.barLen⟩
  · rw [herr]
    exact iff_of_true ⟨fun hvalid => hadm hvalid.admitted, (by decide : (-1 : ℤ) ≠ 0)⟩ fun h => hadm h.1

theorem arguments_misread :
    let slot : Given := ⟨.s, ascii "4", false, by decide⟩
    let wrapped : Given := ⟨.b, ascii "65537", true, by decide⟩
    let negative : Given := ⟨.r, ascii "-254", false, by decide⟩
    let trailing : Given := ⟨.b, ascii "3x", false, by decide⟩
    (¬ArgumentsExact [] [wrapped, slot] ∧ parseArgs (commandLine [] [wrapped, slot]) = .ok ⟨0, 1, 32, 4, 4, 0, 0⟩) ∧
      (¬ArgumentsExact [] [trailing, slot] ∧
        parseArgs (commandLine [] [trailing, slot]) = .ok ⟨0, 3, 32, 4, 4, 0, 0⟩) ∧
      ¬ArgumentsExact [] [⟨.b, ascii "3", false, by decide⟩, negative, slot] ∧
        parseArgs (commandLine [] [⟨.b, ascii "3", false, by decide⟩, negative, slot]) =
          .ok ⟨0, 3, 16, 2, 4, 0, 0⟩ := by
  intro slot wrapped negative trailing
  have hw : parseArgs (commandLine [] [wrapped, slot]) = .ok ⟨0, 1, 32, 4, 4, 0, 0⟩ := by decide
  have ht : parseArgs (commandLine [] [trailing, slot]) = .ok ⟨0, 3, 32, 4, 4, 0, 0⟩ := by decide
  have hn : parseArgs (commandLine [] [⟨.b, ascii "3", false, by decide⟩, negative, slot]) =
      .ok ⟨0, 3, 16, 2, 4, 0, 0⟩ := by decide
  refine ⟨⟨?_, hw⟩, ⟨?_, ht⟩, ?_, hn⟩
  · intro h
    rw [ArgumentsExact, hw] at h
    obtain ⟨z, hz, hrange⟩ := h.1.numerals wrapped (by simp)
    have hnum : numberIn wrapped.text = some 65537 := by decide
    cases hnum.symm.trans hz.reading.1
    exact absurd hrange.2 (by decide)
  · intro h
    rw [ArgumentsExact, ht] at h
    obtain ⟨z, hz, -⟩ := h.1.numerals trailing (by simp)
    exact absurd hz.reading.2.2 (by decide)
  · intro h
    rw [ArgumentsExact, hn] at h
    obtain ⟨z, hz, hrange⟩ := h.1.numerals negative (by simp)
    have hnum : numberIn negative.text = some (-254) := by decide
    cases hnum.symm.trans hz.reading.1
    exact absurd hrange.1 (by decide)

end Pciemu.Arguments
