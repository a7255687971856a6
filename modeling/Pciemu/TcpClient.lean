import Pciemu.Bytes

/-!
The client of the memory server. What the socket calls return is given to the
functions that make them; `fd` is the global variable of that name. A request
lives in a structure on the stack, which receives the response as well.
-/

namespace Pciemu.TcpClient

open Bytes

def memRwCmdR : UInt64 := 1

def memRwCmdW : UInt64 := 2

def memRwRespOk : UInt64 := 1

structure MemRwReq where
  cmd : UInt64
  addr : UInt64
  value : UInt64
  resp : UInt64
  deriving DecidableEq

def sizeofMemRwReq : ℕ := 32

def MemRwReq.bytes (r : MemRwReq) : ℕ → UInt8 :=
  storeWord (storeWord (storeWord (storeWord (fun _ => 0) 0 r.cmd) 8 r.addr) 16 r.value) 24 r.resp

def MemRwReq.ofBytes (b : ℕ → UInt8) : MemRwReq := ⟨wordAt b 0, wordAt b 8, wordAt b 16, wordAt b 24⟩

theorem MemRwReq.ofBytes_bytes (r : MemRwReq) : ofBytes r.bytes = r := by
  simp (disch := decide) only [ofBytes, bytes, wordAt_storeWord, wordAt_storeWord_of_disjoint]

theorem MemRwReq.ofBytes_congr {b b' : ℕ → UInt8} (h : ∀ i < sizeofMemRwReq, b i = b' i) : ofBytes b = ofBytes b' := by
  have hw (ofs : ℕ) (ho : ofs + 8 ≤ sizeofMemRwReq) : wordAt b ofs = wordAt b' ofs :=
    wordAt_congr b b' ofs fun i hi => h (ofs + i) (by omega)
  simp only [ofBytes, hw 0 (by decide), hw 8 (by decide), hw 16 (by decide), hw 24 (by decide)]

def MemRwReq.received (r : MemRwReq) (n : ℕ) (data : ℕ → UInt8) : MemRwReq := ofBytes (splice r.bytes 0 n data)

theorem MemRwReq.received_whole (r : MemRwReq) (data : ℕ → UInt8) :
    r.received sizeofMemRwReq data = ofBytes data := by
  apply ofBytes_congr
  intro i hi
  have h := splice_inside r.bytes data 0 sizeofMemRwReq i hi
  rwa [Nat.zero_add] at h

theorem MemRwReq.received_same (r : MemRwReq) (n : ℕ) (data : ℕ → UInt8) (h : ∀ i < n, data i = r.bytes i) :
    r.received n data = r := by
  have hb : splice r.bytes 0 n data = r.bytes := by
    funext i
    by_cases hi : i < n
    · have hin := splice_inside r.bytes data 0 n i hi
      rw [Nat.zero_add] at hin
      rw [hin, h i hi]
    · exact splice_outside _ _ _ _ _ (.inr (by omega))
  rw [received, hb, ofBytes_bytes]

structure Link where
  socket : ℤ
  connect : ℤ

def linkEmuServer (fd : ℤ) (link : Link) : ℤ × ℤ :=
  if fd > 0 then (fd, -1)
  else if link.socket < 0 then (link.socket, -1)
  else if link.connect < 0 then (link.socket, -1)
  else (link.socket, 0)

def connected (fd : ℤ) (link : Link) : ℤ := if fd < 0 then (linkEmuServer fd link).1 else fd

def sendToServer (fd : ℤ) (link : Link) (sent : ℤ) : ℤ × ℤ :=
  let fd := connected fd link
  if fd < 0 then (fd, -1) else if sent < 0 then (fd, -1) else (fd, 0)

def recvFromServer (fd : ℤ) (link : Link) (recvd : ℤ) (data : ℕ → UInt8) (req : MemRwReq) : ℤ × ℤ × MemRwReq :=
  let fd := connected fd link
  if fd < 0 then (fd, -1, req)
  else if recvd < 0 then (fd, -1, req)
  else (fd, 0, req.received recvd.toNat data)

structure Exchange where
  sendLink : Link
  sent : ℤ
  recvLink : Link
  recvd : ℤ
  data : ℕ → UInt8

inductive Access
  | read (addr : UInt64)
  | write (addr value : UInt64)
  deriving DecidableEq

def Access.addr : Access → UInt64
  | .read addr | .write addr _ => addr

def Access.request (stack : MemRwReq) : Access → MemRwReq
  | .read addr => { stack with cmd := memRwCmdR, addr := addr }
  | .write addr value => { stack with cmd := memRwCmdW, addr := addr, value := value }

def MemRwReq.accepted (req : MemRwReq) (addr : UInt64) : Bool := req.addr = addr && req.resp = memRwRespOk

def Access.reply (req : MemRwReq) : Access → ℤ × Option UInt64
  | .read addr => if req.accepted addr then (0, some req.value) else (-1, some 0xdeadbeef)
  | .write addr _ => if req.accepted addr then (0, none) else (-1, none)

/-- `tcp_send_mem_read_req` and `tcp_send_mem_write_req`: `fd` afterwards, the return value, and
what is stored through the pointer. -/
def tcpSendMemReq (fd : ℤ) (x : Exchange) (stack : MemRwReq) (a : Access) : ℤ × ℤ × Option UInt64 :=
  let req := a.request stack
  let s := sendToServer fd x.sendLink x.sent
  if s.2 ≠ 0 then (s.1, -1, none)
  else
    let r := recvFromServer s.1 x.recvLink x.recvd x.data req
    if r.2.1 ≠ 0 then (r.1, -1, none) else (r.1, a.reply r.2.2)

def tcpSendMemReadReq (fd : ℤ) (x : Exchange) (stack : MemRwReq) (addr : UInt64) : ℤ × ℤ × Option UInt64 :=
  tcpSendMemReq fd x stack (.read addr)

def tcpSendMemWriteReq (fd : ℤ) (x : Exchange) (stack : MemRwReq) (addr value : UInt64) : ℤ × ℤ × Option UInt64 :=
  tcpSendMemReq fd x stack (.write addr value)

theorem connected_of_nonneg {fd : ℤ} (h : 0 ≤ fd) (link : Link) : connected fd link = fd := if_neg (by omega)

theorem tcpSendMemReq_linked {fd c : ℤ} {x : Exchange} (hc : connected fd x.sendLink = c) (h : 0 ≤ c)
    (hs : 0 ≤ x.sent) (hr : 0 ≤ x.recvd) (stack : MemRwReq) (a : Access) :
    tcpSendMemReq fd x stack a = (c, a.reply ((a.request stack).received x.recvd.toNat x.data)) := by
  have hsend : sendToServer fd x.sendLink x.sent = (c, 0) := by
    simp only [sendToServer, hc, if_neg (Int.not_lt.mpr h), if_neg (Int.not_lt.mpr hs)]
  have hrecv (req : MemRwReq) : recvFromServer c x.recvLink x.recvd x.data req =
      (c, 0, req.received x.recvd.toNat x.data) := by
    simp only [recvFromServer, connected_of_nonneg h, if_neg (Int.not_lt.mpr h), if_neg (Int.not_lt.mpr hr)]
  simp only [tcpSendMemReq, hsend, hrecv, ne_eq, not_true, if_false]

theorem tcpSendMemReq_connected {fd : ℤ} (hfd : 0 ≤ fd) (x : Exchange) (hs : 0 ≤ x.sent) (hr : 0 ≤ x.recvd)
    (stack : MemRwReq) (a : Access) :
    tcpSendMemReq fd x stack a = (fd, a.reply ((a.request stack).received x.recvd.toNat x.data)) :=
  tcpSendMemReq_linked (connected_of_nonneg hfd x.sendLink) hfd hs hr stack a

theorem reply_zero {req : MemRwReq} {a : Access} (h : (a.reply req).1 = 0) : req.accepted a.addr := by
  cases a with
  | read addr =>
    simp only [Access.reply] at h
    split_ifs at h with ha
    · exact ha
    · exact absurd h (by decide)
  | write addr value =>
    simp only [Access.reply] at h
    split_ifs at h with ha
    · exact ha
    · exact absurd h (by decide)

end Pciemu.TcpClient
