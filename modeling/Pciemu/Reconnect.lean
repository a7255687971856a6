import Pciemu.Runs
import Pciemu.TcpClient

namespace Pciemu.TcpClient

open Runs

/-- The global variable, and whether it is a connected socket on which no `send` or `recv` has failed. -/
structure Socket where
  fd : ℤ
  live : Bool
  deriving DecidableEq

structure Request where
  exchange : Exchange
  stack : MemRwReq
  access : Access

def Socket.link (s : Socket) (l : Link) : Socket :=
  if s.fd < 0 then ⟨(linkEmuServer s.fd l).1, 0 ≤ l.socket ∧ 0 ≤ l.connect⟩ else s

def Socket.used (s : Socket) (ret : ℤ) : Socket := { s with live := s.live && 0 ≤ ret }

def Socket.send (s : Socket) (x : Exchange) : Socket :=
  let s := s.link x.sendLink
  if s.fd < 0 then s else s.used x.sent

def Socket.recv (s : Socket) (x : Exchange) : Socket :=
  let s := s.link x.recvLink
  if s.fd < 0 then s else s.used x.recvd

def Socket.call (s : Socket) (r : Request) : Socket :=
  if (sendToServer s.fd r.exchange.sendLink r.exchange.sent).2 ≠ 0 then s.send r.exchange
  else (s.send r.exchange).recv r.exchange

def Socket.failed (s : Socket) (r : Request) : Prop :=
  s.fd < 0 ∧ (r.exchange.sendLink.socket < 0 ∨ r.exchange.sendLink.connect < 0) ∨
    0 ≤ connected s.fd r.exchange.sendLink ∧ (r.exchange.sent < 0 ∨ r.exchange.recvd < 0)

def Socket.attemptsLink (s : Socket) : Prop := s.fd < 0

structure Socket.Healthy (s : Socket) (x : Exchange) : Prop where
  socket : 0 ≤ x.sendLink.socket
  connect : 0 ≤ x.sendLink.connect
  sent : x.sent = if s.fd < 0 ∨ s.live then (sizeofMemRwReq : ℤ) else -1
  recvd : x.recvd = if s.fd < 0 ∨ s.live then (sizeofMemRwReq : ℤ) else -1

structure Socket.Recovers (s : Socket) (r : Request) (s' : Socket) : Prop where
  live : 0 ≤ s'.fd → s'.live
  links : s.failed r → s'.attemptsLink
  succeeds : ∀ x stack a, s'.Healthy x → (MemRwReq.ofBytes x.data).accepted a.addr →
    (tcpSendMemReq s'.fd x stack a).2.1 = 0

def Socket.Unbroken (s : Socket) (r : Request) : Prop :=
  (s.fd < 0 → 0 ≤ r.exchange.sendLink.socket → 0 ≤ r.exchange.sendLink.connect) ∧
    (0 ≤ connected s.fd r.exchange.sendLink → 0 ≤ r.exchange.sent ∧ 0 ≤ r.exchange.recvd)

instance (s : Socket) (r : Request) : Decidable (s.Unbroken r) := inferInstanceAs (Decidable (_ ∧ _))

theorem Socket.link_fd (s : Socket) (l : Link) : (s.link l).fd = connected s.fd l := by
  unfold Socket.link connected
  split_ifs <;> rfl

theorem Socket.link_of_nonneg {s : Socket} (h : 0 ≤ s.fd) (l : Link) : s.link l = s := if_neg (by omega)

theorem Socket.link_of_neg {s : Socket} (h : s.fd < 0) (l : Link) :
    s.link l = ⟨l.socket, 0 ≤ l.socket ∧ 0 ≤ l.connect⟩ := by
  have hpos : ¬s.fd > 0 := by omega
  have hfd : (linkEmuServer s.fd l).1 = l.socket := by
    simp only [linkEmuServer, if_neg hpos]
    split_ifs <;> rfl
  rw [Socket.link, if_pos h, hfd]

theorem Socket.call_eq (s : Socket) (r : Request) : s.call r =
    if (s.link r.exchange.sendLink).fd < 0 then s.link r.exchange.sendLink
    else if r.exchange.sent < 0 then (s.link r.exchange.sendLink).used r.exchange.sent
    else ((s.link r.exchange.sendLink).used r.exchange.sent).used r.exchange.recvd := by
  rw [call, send, sendToServer, ← link_fd]
  by_cases h : (s.link r.exchange.sendLink).fd < 0
  · simp [h]
  · by_cases hs : r.exchange.sent < 0
    · simp [h, hs]
    · have hfd : ¬((s.link r.exchange.sendLink).used r.exchange.sent).fd < 0 := h
      have hrecv : ((s.link r.exchange.sendLink).used r.exchange.sent).link r.exchange.recvLink =
          (s.link r.exchange.sendLink).used r.exchange.sent := link_of_nonneg (Int.not_lt.mp hfd) _
      simp [h, hs, recv, hrecv, hfd]

theorem Socket.succeeds_of_live {s : Socket} (h : 0 ≤ s.fd → s.live) (x : Exchange) (stack : MemRwReq) (a : Access)
    (hx : s.Healthy x) (ha : (MemRwReq.ofBytes x.data).accepted a.addr) :
    (tcpSendMemReq s.fd x stack a).2.1 = 0 := by
  have hon : s.fd < 0 ∨ s.live := by
    rcases lt_or_ge s.fd 0 with hfd | hfd
    · exact .inl hfd
    · exact .inr (h hfd)
  have hsent := hx.sent
  have hrecvd := hx.recvd
  rw [if_pos hon] at hsent hrecvd
  have hc : 0 ≤ connected s.fd x.sendLink := by
    rcases lt_or_ge s.fd 0 with hfd | hfd
    · rw [← link_fd, link_of_neg hfd]
      exact hx.socket
    · rwa [connected_of_nonneg hfd]
  rw [tcpSendMemReq_linked rfl hc (hsent ▸ Int.natCast_nonneg _) (hrecvd ▸ Int.natCast_nonneg _), hrecvd,
    Int.toNat_natCast, MemRwReq.received_whole]
  cases a with
  | read addr =>
    rw [Access.addr] at ha
    rw [Access.reply, if_pos ha]
  | write addr value =>
    rw [Access.addr] at ha
    rw [Access.reply, if_pos ha]

theorem Socket.recovers_iff {s : Socket} (h : 0 ≤ s.fd → s.live) (r : Request) :
    s.Recovers r (s.call r) ↔ s.Unbroken r := by
  have hcall := s.call_eq r
  by_cases hneg : (s.link r.exchange.sendLink).fd < 0
  · rw [if_pos hneg] at hcall
    have hfd : s.fd < 0 := by
      by_contra hn
      rw [link_of_nonneg (Int.not_lt.mp hn)] at hneg
      exact hn hneg
    have hsock : r.exchange.sendLink.socket < 0 := by rwa [link_of_neg hfd] at hneg
    rw [hcall]
    have hlive : 0 ≤ (s.link r.exchange.sendLink).fd → (s.link r.exchange.sendLink).live :=
      fun hn => absurd hneg (Int.not_lt.mpr hn)
    refine ⟨fun _ => ⟨?_, ?_⟩, fun _ => ⟨hlive, fun _ => hneg, fun x stack a => succeeds_of_live hlive x stack a⟩⟩
    · intro _ hn
      exact absurd hsock (Int.not_lt.mpr hn)
    · intro hn
      rw [← link_fd] at hn
      exact absurd hneg (Int.not_lt.mpr hn)
  · have hpos := Int.not_lt.mp hneg
    have hlink : (s.link r.exchange.sendLink).live ↔
        (s.fd < 0 → 0 ≤ r.exchange.sendLink.socket → 0 ≤ r.exchange.sendLink.connect) := by
      by_cases hfd : s.fd < 0
      · have hsock : 0 ≤ r.exchange.sendLink.socket := by rwa [link_of_neg hfd] at hpos
        simp [link_of_neg hfd, hfd, hsock]
      · rw [link_of_nonneg (Int.not_lt.mp hfd)]
        simp [hfd, h (Int.not_lt.mp hfd)]
    rw [if_neg hneg] at hcall
    have hiff : (s.call r).live ↔ s.Unbroken r := by
      rw [Unbroken, ← link_fd, hcall, ← hlink]
      by_cases hs : r.exchange.sent < 0
      · simp [used, hs, hpos]
      · simp [used, hs, hpos, Int.not_lt.mp hs]
    have hfd : 0 ≤ (s.call r).fd := by
      rw [hcall]
      split_ifs <;> exact hpos
    constructor
    · intro hr
      exact hiff.mp (hr.live hfd)
    · intro hu
      have hlive := hiff.mpr hu
      refine ⟨fun _ => hlive, ?_, fun x stack a => succeeds_of_live (fun _ => hlive) x stack a⟩
      rintro (⟨hn, hf⟩ | ⟨hc, hf⟩)
      · have hsock : 0 ≤ r.exchange.sendLink.socket := by rwa [link_of_neg hn] at hpos
        have := hu.1 hn hsock
        omega
      · have := hu.2 hc
        omega

def secondTry : List Request :=
  [⟨⟨⟨-1, -1⟩, -1, ⟨-1, -1⟩, -1, fun _ => 0⟩, ⟨0, 0, 0, 0⟩, .read 0x40⟩,
    ⟨⟨⟨5, 0⟩, 32, ⟨-1, -1⟩, 32, fun _ => 0⟩, ⟨0, 0, 0, 0⟩, .read 0x40⟩,
    ⟨⟨⟨-1, -1⟩, 32, ⟨-1, -1⟩, 32, fun _ => 0⟩, ⟨0, 0, 0, 0⟩, .write 0x40 1⟩]

end Pciemu.TcpClient
