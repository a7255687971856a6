import Pciemu.ExactCopy

namespace Pciemu.Device

open Bytes AuroraHw Runs

inductive Entry
  | reset
  | latch (r : Reg) (v : UInt64)
  | toDevice (addr ofs len : UInt64) (data : ℕ → UInt8)
  | fromDevice (addr ofs len : UInt64) (data : ℕ → UInt8)
  | hostStore (host : ℕ → UInt8)
  | other

def ringEntry (m : Machine) : Entry :=
  let txdesc := m.dma.config.txdesc
  let mask := m.dma.config.mask
  match transferCall m.dma.config with
  | some (.pciDmaRead ..) =>
    .toDevice (txdesc.src &&& mask) (txdesc.dst - dmaAreaStart) txdesc.len
      fun i => m.host ((txdesc.src &&& mask).toNat + i)
  | some (.pciDmaWrite ..) =>
    .fromDevice (txdesc.dst &&& mask) (txdesc.src - dmaAreaStart) txdesc.len
      fun i => m.dma.buff ((txdesc.src - dmaAreaStart).toNat + i)
  | _ => .other

def writeEntry (m : Machine) (v : UInt64) : Reg → Entry
  | .src => .latch .src v
  | .dst => .latch .dst v
  | .len => .latch .len v
  | .cmd => .latch .cmd v
  | .doorbell => ringEntry m
  | _ => .other

def entryOf (m : Machine) : Op → Entry
  | .reset => .reset
  | .hostStore host => .hostStore host
  | .write _ addr val _ => writeEntry m val (decode addr)
  | _ => .other

def history (bus : Bus) (m : Machine) : List Op → List Entry
  | [] => []
  | op :: ops => entryOf m op :: history bus (apply bus m op) ops

def sinceReset (es : List Entry) : List Entry :=
  es.foldl (fun acc e => match e with
    | .reset => []
    | e => acc ++ [e]) []

def storeEntry (buff : ℕ → UInt8) : Entry → ℕ → UInt8
  | .toDevice _ ofs len data => splice buff ofs.toNat len.toNat data
  | _ => buff

def hostEntry (host : ℕ → UInt8) : Entry → ℕ → UInt8
  | .fromDevice addr _ len data => splice host addr.toNat len.toNat data
  | .hostStore host => host
  | _ => host

def latchEntry (r : Reg) (v : UInt64) : Entry → UInt64
  | .latch r' v' => if r' = r then v' else v
  | _ => v

def replayBuff (es : List Entry) : ℕ → UInt8 := (sinceReset es).foldl storeEntry fun _ => 0

def replayHost (host : ℕ → UInt8) (es : List Entry) : ℕ → UInt8 := es.foldl hostEntry host

def lastWritten (r : Reg) (es : List Entry) : UInt64 := (sinceReset es).foldl (latchEntry r) 0

def Entry.call : Entry → List Event
  | .toDevice addr ofs len _ => [.pciDmaRead addr ofs len]
  | .fromDevice addr ofs len _ => [.pciDmaWrite addr ofs len]
  | _ => []

theorem history_snoc (bus : Bus) (m : Machine) (ops : List Op) (op : Op) :
    history bus m (ops ++ [op]) = history bus m ops ++ [entryOf (run bus m ops) op] := by
  induction ops generalizing m with
  | nil => rfl
  | cons o ops ih =>
    simp only [List.cons_append, history, ih]
    rfl

theorem run_snoc (bus : Bus) (m : Machine) (ops : List Op) (op : Op) :
    run bus m (ops ++ [op]) = apply bus (run bus m ops) op := by
  simp [run, List.foldl_append]

theorem sinceReset_snoc (es : List Entry) (e : Entry) :
    sinceReset (es ++ [e]) = match e with
      | .reset => []
      | e => sinceReset es ++ [e] := by
  simp only [sinceReset, List.foldl_append, List.foldl_cons, List.foldl_nil]

theorem replayBuff_snoc (es : List Entry) (e : Entry) :
    replayBuff (es ++ [e]) = match e with
      | .reset => fun _ => 0
      | e => storeEntry (replayBuff es) e := by
  cases e <;> simp [replayBuff, sinceReset_snoc, List.foldl_append]

theorem lastWritten_snoc (r : Reg) (es : List Entry) (e : Entry) :
    lastWritten r (es ++ [e]) = match e with
      | .reset => 0
      | e => latchEntry r (lastWritten r es) e := by
  cases e <;> simp [lastWritten, sinceReset_snoc, List.foldl_append]

theorem replayHost_snoc (host : ℕ → UInt8) (es : List Entry) (e : Entry) :
    replayHost host (es ++ [e]) = hostEntry (replayHost host es) e := by
  simp [replayHost, List.foldl_append]

structure Replayed (host : ℕ → UInt8) (es : List Entry) (m : Machine) : Prop where
  status : m.dma.status = .idle
  src : m.dma.config.txdesc.src = lastWritten .src es
  dst : m.dma.config.txdesc.dst = lastWritten .dst es
  len : m.dma.config.txdesc.len = lastWritten .len es
  cmd : m.dma.config.cmd = lastWritten .cmd es
  mask : m.dma.config.mask = dmaBitMask dmaAddrCapability
  buff : ∀ i < areaSize, m.dma.buff i = replayBuff es i
  host : m.host = replayHost host es
  calls : dmaCalls m.log = es.flatMap Entry.call

section Step

variable {host : ℕ → UInt8} {es : List Entry} {m m' : Machine} (h : Replayed host es m)

include h

theorem Replayed.kept (e : Entry) (he : ∀ r, lastWritten r (es ++ [e]) = lastWritten r es)
    (hs : m'.dma.status = m.dma.status) (hc : m'.dma.config = m.dma.config)
    (hb : ∀ i < areaSize, m'.dma.buff i = replayBuff (es ++ [e]) i)
    (hh : m'.host = replayHost host (es ++ [e]))
    (hl : dmaCalls m'.log = dmaCalls m.log ++ e.call) : Replayed host (es ++ [e]) m' where
  status := hs.trans h.status
  src := by rw [hc, h.src, he]
  dst := by rw [hc, h.dst, he]
  len := by rw [hc, h.len, he]
  cmd := by rw [hc, h.cmd, he]
  mask := by rw [hc, h.mask]
  buff := hb
  host := hh
  calls := by simp [hl, h.calls]

theorem Replayed.other (hs : m'.dma.status = m.dma.status) (hc : m'.dma.config = m.dma.config)
    (hb : ∀ i < areaSize, m'.dma.buff i = m.dma.buff i) (hh : m'.host = m.host)
    (hl : dmaCalls m'.log = dmaCalls m.log) : Replayed host (es ++ [.other]) m' := by
  apply h.kept .other (fun r => lastWritten_snoc r es .other) hs hc
  · intro i hi
    rw [hb i hi, h.buff i hi, replayBuff_snoc]
    rfl
  · rw [hh, h.host, replayHost_snoc]
    rfl
  · simpa [Entry.call] using hl

theorem Replayed.latch (r : Reg) (v : UInt64) (c : DmaConfig)
    (hsrc : c.txdesc.src = latchEntry .src m.dma.config.txdesc.src (.latch r v))
    (hdst : c.txdesc.dst = latchEntry .dst m.dma.config.txdesc.dst (.latch r v))
    (hlen : c.txdesc.len = latchEntry .len m.dma.config.txdesc.len (.latch r v))
    (hcmd : c.cmd = latchEntry .cmd m.dma.config.cmd (.latch r v))
    (hmask : c.mask = m.dma.config.mask) : Replayed host (es ++ [.latch r v]) (m.setConfig c) where
  status := h.status
  src := by rw [lastWritten_snoc, ← h.src]; exact hsrc
  dst := by rw [lastWritten_snoc, ← h.dst]; exact hdst
  len := by rw [lastWritten_snoc, ← h.len]; exact hlen
  cmd := by rw [lastWritten_snoc, ← h.cmd]; exact hcmd
  mask := hmask.trans h.mask
  buff := by rw [replayBuff_snoc]; exact h.buff
  host := by rw [replayHost_snoc]; exact h.host
  calls := by simpa [Entry.call] using h.calls

theorem Replayed.reset : Replayed host (es ++ [.reset]) (pciemuReset m) := by
  obtain ⟨irq, hstep, hc, -⟩ := irqReset_step m
  refine ⟨rfl, ?_, ?_, ?_, ?_, ?_, ?_, ?_, ?_⟩
  · rw [lastWritten_snoc]; rfl
  · rw [lastWritten_snoc]; rfl
  · rw [lastWritten_snoc]; rfl
  · rw [lastWritten_snoc]; rfl
  · exact (congrArg (fun d : DmaEngine => d.config.mask) hstep.dma).trans h.mask
  · intro i hi
    rw [replayBuff_snoc]
    have := splice_inside (pciemuIrqReset m).dma.buff (fun _ => 0) 0 areaSize i hi
    rwa [Nat.zero_add] at this
  · rw [replayHost_snoc]
    exact hstep.host.trans h.host
  · change dmaCalls (pciemuIrqReset m).log = _
    simp [hstep.log, hc, h.calls, Entry.call]

theorem Replayed.ring : Replayed host (es ++ [ringEntry m]) (auroraDmaDoorbellRing copyBus m) := by
  unfold ringEntry
  cases hc : transferCall m.dma.config with
  | none =>
    obtain ⟨es', hs, he⟩ := doorbell_refused copyBus m h.status hc
    rw [he]
    exact h.other rfl rfl (fun _ _ => rfl) rfl (by simp [hs.1])
  | some call =>
    obtain ⟨n, hr, -⟩ := doorbell_reentered copyBus_delivers m h.status
    obtain ⟨hb, hh⟩ := doorbell_copied m h.status hc
    rw [hc] at hr
    rcases transferCall_cases hc with rfl | rfl
    · refine h.kept (.toDevice _ _ _ _) (fun r => lastWritten_snoc r es _) hr.status hr.config ?_ ?_ ?_
      · intro i hi
        rw [hb, replayBuff_snoc]
        dsimp only [busAccess, copyBus, Machine.setBuff, storeEntry]
        exact splice_agree _ _ _ _ _ _ (h.buff i hi)
      · rw [hh, replayHost_snoc]
        exact h.host
      · exact hr.calls
    · refine h.kept (.fromDevice _ _ _ _) (fun r => lastWritten_snoc r es _) hr.status hr.config ?_ ?_ ?_
      · intro i hi
        rw [hb, replayBuff_snoc]
        exact h.buff i hi
      · rw [hh, replayHost_snoc, ← h.host]
        rfl
      · exact hr.calls

theorem Replayed.write (val : UInt64) (r : Reg) :
    Replayed host (es ++ [writeEntry m val r]) (writeReg copyBus m val r) := by
  have hcfg (f : DmaConfig → DmaConfig) : configWhenIdle f m = m.setConfig (f m.dma.config) := by
    rw [configWhenIdle, if_pos h.status]
  cases r with
  | scratch i =>
    refine h.other rfl rfl ?_ rfl rfl
    intro j hj
    apply splice_outside
    simp only [regsOfs]
    omega
  | irqRaise =>
    obtain ⟨e, hstep, hc, -⟩ := raise_step m
    exact h.other (by rw [writeReg, hstep.dma]) (by rw [writeReg, hstep.dma])
      (fun _ _ => by rw [writeReg, hstep.dma]) hstep.host (by simp [writeReg, hstep.log, hc])
  | irqLower =>
    obtain ⟨es', hstep, hc, -⟩ := lower_step m irqDmaEndedVector
    exact h.other (by rw [writeReg, hstep.dma]) (by rw [writeReg, hstep.dma])
      (fun _ _ => by rw [writeReg, hstep.dma]) hstep.host (by simp [writeReg, hstep.log, hc])
  | src =>
    rw [writeReg, auroraDmaConfigTxdescSrc, hcfg]
    exact h.latch .src val _ rfl rfl rfl rfl rfl
  | dst =>
    rw [writeReg, auroraDmaConfigTxdescDst, hcfg]
    exact h.latch .dst val _ rfl rfl rfl rfl rfl
  | len =>
    rw [writeReg, auroraDmaConfigTxdescLen, hcfg]
    exact h.latch .len val _ rfl rfl rfl rfl rfl
  | cmd =>
    rw [writeReg, auroraDmaConfigCmd, hcfg]
    exact h.latch .cmd val _ rfl rfl rfl rfl rfl
  | doorbell => exact h.ring
  | hole => exact h.other rfl rfl (fun _ _ => rfl) rfl rfl

theorem Replayed.apply (op : Op) : Replayed host (es ++ [entryOf m op]) (apply copyBus m op) := by
  cases op with
  | read bar addr size => exact h.other rfl rfl (fun _ _ => rfl) rfl rfl
  | write bar addr val size =>
    simp only [Device.apply, barWrite_eq, entryOf]
    exact h.write val (decode addr)
  | reset => exact h.reset
  | setMode msix msi => exact h.other rfl rfl (fun _ _ => rfl) rfl rfl
  | hostStore host' =>
    change Replayed host (es ++ [.hostStore host']) { m with host := host' }
    refine h.kept _ (fun r => lastWritten_snoc r es _) rfl rfl ?_ ?_ ?_
    · intro i hi
      rw [replayBuff_snoc]
      exact h.buff i hi
    · rw [replayHost_snoc]
      rfl
    · simp [Entry.call]

end Step

theorem replayed_init (raw : DmaEngine) (host : ℕ → UInt8) : Replayed host [] (pciemuDeviceInit raw host) where
  status := rfl
  src := rfl
  dst := rfl
  len := rfl
  cmd := rfl
  mask := rfl
  buff := by
    intro i hi
    have := splice_inside raw.buff (fun _ => 0) 0 areaSize i hi
    rwa [Nat.zero_add] at this
  host := rfl
  calls := rfl

theorem replayed_copyBus (raw : DmaEngine) (host : ℕ → UInt8) (ops : List Op) :
    Replayed host (history copyBus (pciemuDeviceInit raw host) ops)
      (run copyBus (pciemuDeviceInit raw host) ops) := by
  induction ops using List.reverseRecOn with
  | nil => exact replayed_init raw host
  | append_singleton ops op ih =>
    rw [history_snoc, run_snoc]
    exact ih.apply op

theorem history_agrees {bus ref : Bus} (hb : bus.AgreesWith ref) (ops : List Op) (m : Machine)
    (h : Along (total (apply bus)) (fun m op _ => LengthFits m op) m ops) :
    history bus m ops = history ref m ops := by
  induction ops generalizing m with
  | nil => rfl
  | cons op ops ih =>
    obtain ⟨hop, hrest⟩ := h _ rfl
    rw [apply_agrees hb m op hop] at hrest
    rw [history, history, apply_agrees hb m op hop, ih _ hrest]

def Entry.keepsBuff : Entry → Bool
  | .reset => false
  | .toDevice .. => false
  | _ => true

theorem replayBuff_keeps (es es' : List Entry) (h : ∀ e ∈ es', e.keepsBuff) :
    replayBuff (es ++ es') = replayBuff es := by
  induction es' using List.reverseRecOn with
  | nil => rw [List.append_nil]
  | append_singleton es' e ih =>
    rw [← List.append_assoc, replayBuff_snoc]
    have he := h e (by simp)
    rw [← ih (fun e' he' => h e' (by simp [he']))]
    cases e <;> first | rfl | simp [Entry.keepsBuff] at he

theorem ringEntry_fromDevice {m : Machine} {a o l : UInt64} {d : ℕ → UInt8}
    (h : ringEntry m = .fromDevice a o l d) :
    transferCall m.dma.config = some (.pciDmaWrite a o l) ∧ d = fun i => m.dma.buff (o.toNat + i) := by
  unfold ringEntry at h
  cases hc : transferCall m.dma.config with
  | none => simp [hc] at h
  | some call =>
    rcases transferCall_cases hc with rfl | rfl
    · simp [hc] at h
    · simp only [hc, Entry.fromDevice.injEq] at h
      obtain ⟨rfl, rfl, rfl, rfl⟩ := h
      exact ⟨rfl, rfl⟩

theorem entryOf_fromDevice {m : Machine} {op : Op} {a o l : UInt64} {d : ℕ → UInt8}
    (h : entryOf m op = .fromDevice a o l d) : op.rings ∧ ringEntry m = .fromDevice a o l d := by
  cases op with
  | write bar addr val size =>
    simp only [entryOf] at h
    cases hd : decode addr with
    | doorbell =>
      rw [hd] at h
      exact ⟨decide_eq_true ((decode_eq addr .doorbell (by decide)).mp hd), h⟩
    | _ =>
      rw [hd] at h
      cases h
  | _ => cases h

theorem history_last {bus : Bus} {m : Machine} {ops : List Op} {es : List Entry} {e : Entry}
    (h : history bus m ops = es ++ [e]) :
    ∃ ops' op, ops = ops' ++ [op] ∧ history bus m ops' = es ∧ entryOf (run bus m ops') op = e := by
  cases ops using List.reverseRecOn with
  | nil => exact absurd h (by simp [history])
  | append_singleton ops' op =>
    rw [history_snoc] at h
    obtain ⟨he, hs⟩ := List.append_inj' h rfl
    exact ⟨ops', op, rfl, he, List.singleton_inj.mp hs⟩

theorem run_replay (bus : Bus) (hb : bus.CopiesExactly) (raw : DmaEngine) (host : ℕ → UInt8)
    (ops : List Op)
    (hfit : Along (total (apply bus)) (fun m op _ => LengthFits m op) (pciemuDeviceInit raw host) ops) :
    Replayed host (history bus (pciemuDeviceInit raw host) ops)
        (run bus (pciemuDeviceInit raw host) ops) ∧
      ∀ es es' a a' o l d d', history bus (pciemuDeviceInit raw host) ops =
          (es ++ [.toDevice a o l d]) ++ es' ++ [.fromDevice a' o l d'] →
        (∀ e ∈ es', e.keepsBuff) → ∀ i < l.toNat,
          (run bus (pciemuDeviceInit raw host) ops).host (a'.toNat + i) = d i := by
  obtain ⟨hfit', hrun⟩ := along_agrees hb ops _ hfit
  rw [history_agrees hb ops _ hfit, hrun]
  have hrep := replayed_copyBus raw host ops
  refine ⟨hrep, ?_⟩
  intro es es' a a' o l d d' hh hkeep i hi
  rw [hh] at hrep
  rw [hrep.host, replayHost_snoc, hostEntry, splice_inside _ _ _ _ _ hi]
  obtain ⟨ops', op, rfl, hh', hlast⟩ := history_last hh
  obtain ⟨hring, hlast⟩ := entryOf_fromDevice hlast
  obtain ⟨hcall, rfl⟩ := ringEntry_fromDevice hlast
  obtain ⟨-, hop⟩ := (along_append _ ops' [op]).mp hfit'
  have hlen := ((hop _ (run_total _ _ ops')) _ rfl).1.call hring _ hcall
  have hrep' := replayed_copyBus raw host ops'
  rw [hh'] at hrep'
  have hin : o.toNat + i < areaSize := Nat.lt_of_lt_of_le (Nat.add_lt_add_left hi _) hlen
  change (run copyBus (pciemuDeviceInit raw host) ops').dma.buff (o.toNat + i) = d i
  rw [hrep'.buff _ hin, replayBuff_keeps _ _ hkeep, replayBuff_snoc]
  exact splice_inside _ _ _ _ _ hi

theorem run_replay_copyBus :
    let ops := [.write .reg regDmaCfgTxdescSrc 0x2000 8, .write .reg regDmaCfgTxdescDst 0x10ff0 8,
      .write .internal regDmaCfgTxdescLen 16 8, .write .reg regDmaCfgCmd 1 8,
      .write .reg regDmaDoorbellRing 1 8, .hostStore fun _ => 0, .write .reg regDmaCfgTxdescSrc 0x10ff0 8,
      .write .reg regDmaCfgTxdescDst 0x3000 8, .write .reg regDmaCfgCmd 2 8,
      .write .internal regDmaDoorbellRing 1 8]
    let init := pciemuDeviceInit zeroEngine fun _ => 7
    Along (total (apply copyBus)) (fun m op _ => LengthFits m op) init ops ∧
      Replayed (fun _ => 7) (history copyBus init ops) (run copyBus init ops) := by
  intro ops init
  have hfit : Along (total (apply copyBus)) (fun m op _ => LengthFits m op) init ops := by decide
  exact ⟨hfit, (run_replay copyBus (.refl copyBus) zeroEngine (fun _ => 7) ops hfit).1⟩

end Pciemu.Device
