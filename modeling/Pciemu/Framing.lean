import Pciemu.TcpClient

namespace Pciemu.TcpClient

open Bytes

structure Call where
  access : Access
  stack : MemRwReq

/-- `send` takes the whole request and `recv` returns `n` bytes of `stream`. -/
def delivery (n : ℕ) (stream : ℕ → UInt8) : Exchange := ⟨⟨-1, -1⟩, sizeofMemRwReq, ⟨-1, -1⟩, n, stream⟩

def session (fd : ℤ) : List Call → List ℕ → (ℕ → UInt8) → List (ℤ × Option UInt64)
  | c :: cs, n :: ns, stream =>
    let r := tcpSendMemReq fd (delivery n stream) c.stack c.access
    r.2 :: session r.1 cs ns (fun i => stream (n + i))
  | _, _, _ => []

def response (stream : ℕ → UInt8) (k : ℕ) : MemRwReq := .ofBytes fun i => stream (sizeofMemRwReq * k + i)

def Framed (fd : ℤ) (calls : List Call) (ns : List ℕ) (stream : ℕ → UInt8) : Prop :=
  session fd calls ns stream = session fd calls (ns.map fun _ => sizeofMemRwReq) stream ∧
    ∀ (k : ℕ) (c : Call) (r : ℤ × Option UInt64), calls[k]? = some c → (session fd calls ns stream)[k]? = some r →
      r.1 = 0 → ns[k]? = some sizeofMemRwReq ∧ (response stream k).accepted c.access.addr

theorem response_succ (stream : ℕ → UInt8) (k : ℕ) :
    response (fun i => stream (sizeofMemRwReq + i)) k = response stream (k + 1) := by
  apply MemRwReq.ofBytes_congr
  intro i _
  have hi : sizeofMemRwReq + (sizeofMemRwReq * k + i) = sizeofMemRwReq * (k + 1) + i := by ring
  exact congrArg stream hi

theorem session_cons {fd : ℤ} (hfd : 0 ≤ fd) (c : Call) (cs : List Call) (n : ℕ) (ns : List ℕ)
    (stream : ℕ → UInt8) :
    session fd (c :: cs) (n :: ns) stream =
      c.access.reply ((c.access.request c.stack).received n stream) ::
        session fd cs ns (fun i => stream (n + i)) := by
  have h := tcpSendMemReq_connected hfd (delivery n stream) (Int.natCast_nonneg sizeofMemRwReq) (Int.natCast_nonneg n)
    c.stack c.access
  simp only [session, h]
  rfl

theorem session_whole {fd : ℤ} (hfd : 0 ≤ fd) (calls : List Call) (ns : List ℕ) (h : ∀ n ∈ ns, n = sizeofMemRwReq)
    (stream : ℕ → UInt8) (k : ℕ) (c : Call) (r : ℤ × Option UInt64) (hc : calls[k]? = some c)
    (hr : (session fd calls ns stream)[k]? = some r) (h0 : r.1 = 0) :
    ns[k]? = some sizeofMemRwReq ∧ (response stream k).accepted c.access.addr := by
  induction calls generalizing ns stream k with
  | nil => cases hc
  | cons c' cs ih =>
    cases ns with
    | nil => cases hr
    | cons n ns =>
      obtain rfl := h n List.mem_cons_self
      rw [session_cons hfd] at hr
      cases k with
      | zero =>
        obtain rfl := Option.some.inj hc
        obtain rfl := Option.some.inj hr
        rw [MemRwReq.received_whole] at h0
        refine ⟨rfl, ?_⟩
        have hresp : response stream 0 = .ofBytes stream := by simp only [response, Nat.mul_zero, Nat.zero_add]
        rw [hresp]
        exact reply_zero h0
      | succ k =>
        obtain ⟨hn, ha⟩ := ih ns (fun m hm => h m (List.mem_cons_of_mem _ hm)) _ k hc hr
        refine ⟨hn, ?_⟩
        rwa [response_succ] at ha

def echoCall : Call := ⟨.read 0, ⟨0, 0, 0, memRwRespOk⟩⟩

def echoStream (i : ℕ) : UInt8 := (echoCall.access.request echoCall.stack).bytes (i % sizeofMemRwReq)

theorem echo_succeeds {fd : ℤ} (hfd : 0 ≤ fd) (ns : List ℕ) (hn : ∀ n ∈ ns, n ≤ sizeofMemRwReq)
    (h : ∃ n ∈ ns, n ≠ sizeofMemRwReq) :
    ∃ (k : ℕ) (r : ℤ × Option UInt64), (ns.map fun _ => echoCall)[k]? = some echoCall ∧
      (session fd (ns.map fun _ => echoCall) ns echoStream)[k]? = some r ∧ r.1 = 0 ∧
      ns[k]? ≠ some sizeofMemRwReq := by
  induction ns with
  | nil =>
    obtain ⟨n, hmem, -⟩ := h
    cases hmem
  | cons n ns ih =>
    rw [List.map_cons, session_cons hfd]
    by_cases hne : n = sizeofMemRwReq
    · subst hne
      have hrest : ∃ n ∈ ns, n ≠ sizeofMemRwReq := by
        obtain ⟨m, hm, hne⟩ := h
        exact ⟨m, (List.mem_cons.mp hm).resolve_left hne, hne⟩
      obtain ⟨k, r, hk, hr, h0, hns⟩ := ih (fun m hm => hn m (List.mem_cons_of_mem _ hm)) hrest
      have hshift : (fun i => echoStream (sizeofMemRwReq + i)) = echoStream := by
        funext i
        simp only [echoStream, Nat.add_mod_left]
      refine ⟨k + 1, r, hk, ?_, h0, hns⟩
      rw [hshift]
      exact hr
    · refine ⟨0, _, rfl, rfl, ?_, ?_⟩
      · have hle := hn n List.mem_cons_self
        rw [MemRwReq.received_same]
        · decide
        · intro i hi
          rw [echoStream, Nat.mod_eq_of_lt (Nat.lt_of_lt_of_le hi hle)]
      · exact fun he => hne (Option.some.inj he)

theorem framed_iff (fd : ℤ) (hfd : 0 ≤ fd) (ns : List ℕ) (hn : ∀ n ∈ ns, n ≤ sizeofMemRwReq) :
    (∀ calls stream, Framed fd calls ns stream) ↔ ∀ n ∈ ns, n = sizeofMemRwReq := by
  constructor
  · intro h
    by_contra hne
    have hshort : ∃ n ∈ ns, n ≠ sizeofMemRwReq := by
      by_contra hall
      exact hne fun n hmem => by_contra fun hn => hall ⟨n, hmem, hn⟩
    obtain ⟨k, r, hk, hr, h0, hns⟩ := echo_succeeds hfd ns hn hshort
    exact hns ((h _ echoStream).2 k echoCall r hk hr h0).1
  · intro h calls stream
    refine ⟨?_, session_whole hfd calls ns h stream⟩
    have hmap : (ns.map fun _ => sizeofMemRwReq) = ns :=
      (List.map_congr_left fun n hmem => (h n hmem).symm).trans (List.map_id ns)
    rw [hmap]

theorem framed_iff_two :
    (∀ n ∈ [32, 32], n = sizeofMemRwReq) ∧ ∀ calls stream, Framed 5 calls [32, 32] stream := by
  have hn : ∀ n ∈ [32, 32], n = sizeofMemRwReq := by decide
  exact ⟨hn, (framed_iff 5 (by decide) [32, 32] (by decide)).mpr hn⟩

theorem framed_closed :
    session 5 [⟨.read 0x40, ⟨0, 0, 77, memRwRespOk⟩⟩] [0] (fun _ => 0) = [(0, some 77)] ∧
      ¬Framed 5 [⟨.read 0x40, ⟨0, 0, 77, memRwRespOk⟩⟩] [0] (fun _ => 0) := by
  have hs : session 5 [⟨.read 0x40, ⟨0, 0, 77, memRwRespOk⟩⟩] [0] (fun _ => 0) = [(0, some 77)] := by decide
  refine ⟨hs, fun h => ?_⟩
  have hk := h.2 0 _ (0, some 77) rfl (by rw [hs]; rfl) rfl
  exact absurd hk.1 (by decide)

end Pciemu.TcpClient
