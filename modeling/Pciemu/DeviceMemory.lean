import Pciemu.LockStep

namespace Pciemu.TcpClient

open Bytes Runs

def byteServer (mem : ℕ → UInt8) (req : MemRwReq) : (ℕ → UInt8) × MemRwReq :=
  if req.cmd = memRwCmdR then (mem, { req with value := wordAt mem req.addr.toNat, resp := memRwRespOk })
  else if req.cmd = memRwCmdW then (storeWord mem req.addr.toNat req.value, { req with resp := memRwRespOk })
  else (mem, { req with resp := memRwRespOk })

inductive Guest
  | read (addr : UInt64) (size : ℕ) (stack : MemRwReq)
  | write (addr val : UInt64) (size : ℕ) (stack : MemRwReq)

def Guest.size : Guest → ℕ
  | .read _ size _ | .write _ _ size _ => size

structure DeviceMemory where
  fd : ℤ
  mem : ℕ → UInt8

/-- The device memory after the access, and what the guest gets for a read. The memory core passes
values on zero-extended from the size of the access and truncates what is read to it. -/
def memAccess (link : Link) (d : DeviceMemory) : Guest → DeviceMemory × Option UInt64
  | .read addr size stack =>
    let served := byteServer d.mem ((Access.read addr).request stack)
    let r := pciemuMembarRead d.fd (whole link link served.2) stack addr size
    (⟨r.1, served.1⟩, some (lowBytes size r.2))
  | .write addr val size stack =>
    let val := lowBytes size val
    let served := byteServer d.mem ((Access.write addr val).request stack)
    (⟨pciemuMembarWrite d.fd (whole link link served.2) stack addr val size, served.1⟩, none)

def byteMemory (mem : ℕ → UInt8) : Guest → (ℕ → UInt8) × Option ℕ
  | .read addr size _ => (mem, some (natAt mem addr.toNat size))
  | .write addr val size _ => (splice mem addr.toNat size (byteOf val.toNat), none)

def readings (link : Link) (d : DeviceMemory) : List Guest → List (Option ℕ)
  | [] => []
  | op :: ops => (memAccess link d op).2.map UInt64.toNat :: readings link (memAccess link d op).1 ops

def expectedReadings (mem : ℕ → UInt8) : List Guest → List (Option ℕ)
  | [] => []
  | op :: ops => (byteMemory mem op).2 :: expectedReadings (byteMemory mem op).1 ops

def memStep (link : Link) (d : DeviceMemory) (op : Guest) : DeviceMemory := (memAccess link d op).1

def ByteAddressable (link : Link) (d : DeviceMemory) (ops : List Guest) : Prop :=
  Along (total (memStep link)) (fun d op d' => d'.mem = (byteMemory d.mem op).1) d ops ∧
    readings link d ops = expectedReadings d.mem ops

def TailZero (mem : ℕ → UInt8) : Guest → Prop
  | .read _ _ _ => True
  | .write addr _ size _ => ∀ i < 8, size ≤ i → mem (addr.toNat + i) = 0

instance (mem : ℕ → UInt8) (op : Guest) : Decidable (TailZero mem op) :=
  match op with
  | .read _ _ _ => isTrue trivial
  | .write addr _ size _ => inferInstanceAs (Decidable (∀ i < 8, size ≤ i → mem (addr.toNat + i) = 0))

section Access

variable {link : Link} (hlink : 0 ≤ link.socket) (d : DeviceMemory)

include hlink

theorem connected_link (fd : ℤ) : 0 ≤ connected fd link := by
  unfold connected linkEmuServer
  split_ifs <;> omega

theorem tcpSendMemReq_served (fd : ℤ) (resp stack : MemRwReq) (a : Access) :
    tcpSendMemReq fd (whole link link resp) stack a = (connected fd link, a.reply resp) := by
  have h := tcpSendMemReq_linked (x := whole link link resp) (rfl : _ = connected fd link)
    (connected_link hlink fd) (Int.natCast_nonneg _) (Int.natCast_nonneg _) stack a
  simp only [whole, Int.toNat_natCast, MemRwReq.received_whole, MemRwReq.ofBytes_bytes] at h
  exact h

theorem memAccess_read (addr : UInt64) (size : ℕ) (stack : MemRwReq) : memAccess link d (.read addr size stack) =
    (⟨connected d.fd link, d.mem⟩, some (lowBytes size (wordAt d.mem addr.toNat))) := by
  have hs : byteServer d.mem ((Access.read addr).request stack) =
      (d.mem, ⟨memRwCmdR, addr, wordAt d.mem addr.toNat, memRwRespOk⟩) := if_pos rfl
  simp only [memAccess, hs, pciemuMembarRead, glueReadDevmemByAddr, auroraReadDevmemByAddr, tcpSendMemReadReq,
    tcpSendMemReq_served hlink, reply_read, and_self, if_true, Option.getD_some]

theorem memAccess_write (addr val : UInt64) (size : ℕ) (stack : MemRwReq) :
    memAccess link d (.write addr val size stack) =
      (⟨connected d.fd link, storeWord d.mem addr.toNat (lowBytes size val)⟩, none) := by
  have hne : memRwCmdW ≠ memRwCmdR := by decide
  have hs (v : UInt64) : (byteServer d.mem ((Access.write addr v).request stack)).1 =
      storeWord d.mem addr.toNat v := by
    simp only [byteServer, Access.request, if_neg hne, if_true]
  simp only [memAccess, hs, pciemuMembarWrite, glueWriteDevmemByAddr, auroraWriteDevmemByAddr, tcpSendMemWriteReq,
    tcpSendMemReq_served hlink]

end Access

theorem storeWord_lowBytes_iff (mem : ℕ → UInt8) (ofs n : ℕ) (hn : n ≤ 8) (v : UInt64) :
    storeWord mem ofs (lowBytes n v) = splice mem ofs n (byteOf v.toNat) ↔
      ∀ i < 8, n ≤ i → mem (ofs + i) = 0 := by
  rw [storeWord, lowBytes_toNat]
  constructor
  · intro h i hi hni
    have hbyte := congrFun h (ofs + i)
    rw [splice_inside _ _ _ _ _ hi, splice_outside _ _ _ _ _ (.inr (by omega)), byteOf_above _ _ _ hni] at hbyte
    exact hbyte.symm
  · intro h
    funext k
    by_cases hk : ofs ≤ k ∧ k < ofs + 8
    · obtain ⟨i, rfl⟩ := Nat.exists_eq_add_of_le hk.1
      rw [splice_inside _ _ _ _ _ (by omega)]
      rcases Nat.lt_or_ge i n with hi | hi
      · rw [splice_inside _ _ _ _ _ hi, byteOf_mod _ _ _ hi]
      · rw [splice_outside _ _ _ _ _ (.inr (by omega)), byteOf_above _ _ _ hi, h i (by omega) hi]
    · rw [splice_outside _ _ _ _ _ (by omega), splice_outside _ _ _ _ _ (by omega)]

theorem memAccess_exact_iff {link : Link} (hlink : 0 ≤ link.socket) (d : DeviceMemory) (op : Guest)
    (h8 : op.size ≤ 8) : (memAccess link d op).1.mem = (byteMemory d.mem op).1 ↔ TailZero d.mem op := by
  cases op with
  | read addr size stack =>
    rw [memAccess_read hlink]
    exact ⟨fun _ => trivial, fun _ => rfl⟩
  | write addr val size stack =>
    rw [memAccess_write hlink]
    exact storeWord_lowBytes_iff d.mem addr.toNat size h8 val

theorem memAccess_reading {link : Link} (hlink : 0 ≤ link.socket) (d : DeviceMemory) (op : Guest)
    (h8 : op.size ≤ 8) : (memAccess link d op).2.map UInt64.toNat = (byteMemory d.mem op).2 := by
  cases op with
  | read addr size stack =>
    rw [memAccess_read hlink, Option.map_some]
    exact congrArg some (lowBytes_wordAt d.mem addr.toNat size h8)
  | write addr val size stack =>
    rw [memAccess_write hlink]
    rfl

theorem readings_exact {link : Link} (hlink : 0 ≤ link.socket) (ops : List Guest) (h8 : ∀ op ∈ ops, op.size ≤ 8)
    (d : DeviceMemory)
    (h : Along (total (memStep link)) (fun d op d' => d'.mem = (byteMemory d.mem op).1) d ops) :
    readings link d ops = expectedReadings d.mem ops := by
  induction ops generalizing d with
  | nil => rfl
  | cons op ops ih =>
    obtain ⟨hmem, hrest⟩ := h _ rfl
    have ht := ih (fun o ho => h8 o (List.mem_cons_of_mem op ho)) _ hrest
    rw [hmem] at ht
    rw [readings, expectedReadings, memAccess_reading hlink d op (h8 op List.mem_cons_self)]
    exact congrArg (List.cons _) ht

theorem device_memory_iff (link : Link) (hlink : 0 ≤ link.socket) (fd : ℤ) (mem : ℕ → UInt8) (ops : List Guest)
    (hsize : ∀ op ∈ ops, op.size = 4 ∨ op.size = 8) :
    ByteAddressable link ⟨fd, mem⟩ ops ↔
      Along (total (memStep link)) (fun d op _ => TailZero d.mem op) ⟨fd, mem⟩ ops := by
  have h8 : ∀ op ∈ ops, op.size ≤ 8 := by
    intro op hop
    have := hsize op hop
    omega
  have hiff (op : Guest) (hop : op ∈ ops) (d t : DeviceMemory) (ht : total (memStep link) d op = some t) :
      t.mem = (byteMemory d.mem op).1 ↔ TailZero d.mem op := by
    rw [← Option.some.inj ht]
    exact memAccess_exact_iff hlink d op (h8 op hop)
  constructor
  · rintro ⟨h, -⟩
    exact along_imp ops (fun op hop d t ht => (hiff op hop d t ht).mp) h
  · intro h
    have hexact := along_imp ops (fun op hop d t ht => (hiff op hop d t ht).mpr) h
    exact ⟨hexact, readings_exact hlink ops h8 ⟨fd, mem⟩ hexact⟩

theorem device_memory_words :
    let stack : MemRwReq := ⟨0, 0, 0, 0⟩
    let d : DeviceMemory := ⟨-1, fun _ => 0⟩
    let ops := [.write 0x20 0x1122334455667788 8 stack, .write 0x10 7 4 stack, .write 0x14 0xaabbccdd 4 stack,
      .read 0x10 8 stack, .read 0x24 4 stack]
    ByteAddressable ⟨3, 0⟩ d ops ∧
      readings ⟨3, 0⟩ d ops = [none, none, none, some 0xaabbccdd00000007, some 0x11223344] := by
  intro stack d ops
  refine ⟨(device_memory_iff ⟨3, 0⟩ (by decide) (-1) (fun _ => 0) ops ?_).mpr (by decide), by decide⟩
  simp [ops, Guest.size]

theorem device_memory_clobbered :
    let stack : MemRwReq := ⟨0, 0, 0, 0⟩
    let d : DeviceMemory := ⟨-1, fun _ => 0⟩
    let ops := [.write 0x14 0xaabbccdd 4 stack, .write 0x10 7 4 stack, .read 0x14 4 stack]
    ¬ByteAddressable ⟨3, 0⟩ d ops ∧ readings ⟨3, 0⟩ d ops = [none, none, some 0] ∧
      expectedReadings d.mem ops = [none, none, some 0xaabbccdd] := by
  intro stack d ops
  have h : readings ⟨3, 0⟩ d ops = [none, none, some 0] := by decide
  have h' : expectedReadings d.mem ops = [none, none, some 0xaabbccdd] := by decide
  refine ⟨?_, h, h'⟩
  rintro ⟨-, he⟩
  rw [h, h'] at he
  exact absurd he (by decide)

end Pciemu.TcpClient
