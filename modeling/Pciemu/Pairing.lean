import Pciemu.TcpClient
import Pciemu.Runs
import Pciemu.Tickets

/-!
Threads that share the connection. Sending and receiving are one step each. Requests
are numbered in the order in which they were sent; the server answers them in that
order, and a response carries the number of the request it answers.
-/

namespace Pciemu.TcpClient

open Runs Tickets

structure Waiting where
  access : Access
  req : MemRwReq
  number : ℕ
  deriving DecidableEq

structure Returned (T : Type*) where
  thread : T
  access : Access
  number : Option ℕ
  response : Option (ℕ × MemRwReq)
  ret : ℤ × Option UInt64
  deriving DecidableEq

structure Connection (T : Type*) where
  fd : ℤ
  threads : T → Option Waiting
  sent : ℕ
  requests : List (ℕ × MemRwReq)
  responses : List (ℕ × MemRwReq)
  log : List (Returned T)

inductive Step (T : Type*)
  | send (t : T) (access : Access) (stack : MemRwReq) (link : Link) (sent : ℤ)
  | answer (resp : MemRwReq)
  | recv (t : T) (link : Link)

variable {T : Type*}

def Connection.start (fd : ℤ) : Connection T := ⟨fd, fun _ => none, 0, [], [], []⟩

def Returned.Paired (e : Returned T) : Prop :=
  e.ret.1 = 0 → ∃ k resp, e.number = some k ∧ e.response = some (k, resp) ∧
    ∀ addr, e.access = .read addr → e.ret.2 = some resp.value

def InOrder (s : Connection T) : Step T → Connection T → Prop
  | .recv t _, _ => ∀ w ∈ s.threads t, ∀ u, ∀ w' ∈ s.threads u, w.number ≤ w'.number
  | _, _ => True

def Connection.numbers (s : Connection T) : T → Option ℕ := Option.map Waiting.number ∘ s.threads

def Connection.pending (s : Connection T) : List ℕ := (s.responses ++ s.requests).map Prod.fst

structure Connection.Matched (s : Connection T) : Prop where
  issued : Issued s.numbers s.pending s.sent
  connected : ∀ t w, s.threads t = some w → 0 ≤ s.fd
  paired : ∀ e ∈ s.log, e.Paired

theorem reply_read_zero {req : MemRwReq} {addr : UInt64} (h : ((Access.read addr).reply req).1 = 0) :
    ((Access.read addr).reply req).2 = some req.value := by
  have ha := reply_zero h
  simp only [Access.reply, Access.addr] at ha ⊢
  rw [if_pos ha]

theorem paired_failed (t : T) (a : Access) (number : Option ℕ) (response : Option (ℕ × MemRwReq))
    (v : Option UInt64) : (⟨t, a, number, response, -1, v⟩ : Returned T).Paired := by
  rintro ⟨⟩

theorem paired_own (t : T) (a : Access) (k : ℕ) (resp : MemRwReq) :
    (⟨t, a, some k, some (k, resp), a.reply resp⟩ : Returned T).Paired := by
  intro h
  refine ⟨k, resp, rfl, rfl, ?_⟩
  rintro addr rfl
  exact reply_read_zero h

theorem paired_append {log : List (Returned T)} (h : ∀ e ∈ log, e.Paired) {e' : Returned T} (he : e'.Paired) :
    ∀ e ∈ log ++ [e'], e.Paired := by
  intro e hmem
  rcases List.mem_append.mp hmem with hmem | hmem
  · exact h e hmem
  · rwa [List.mem_singleton.mp hmem]

theorem Connection.start_matched (fd : ℤ) : (start fd : Connection T).Matched := by
  refine ⟨issued_empty 0, ?_, ?_⟩
  · intro t w ht
    cases ht
  · intro e he
    cases he

theorem Connection.answer_matched {s : Connection T} (h : s.Matched) {k : ℕ} {req : MemRwReq}
    {rest : List (ℕ × MemRwReq)} (hr : s.requests = (k, req) :: rest) (resp : MemRwReq) :
    Connection.Matched { s with requests := rest, responses := s.responses ++ [(k, resp)] } := by
  refine ⟨?_, h.connected, h.paired⟩
  have hi := h.issued
  rw [pending, hr] at hi
  simpa only [numbers, pending, List.map_append, List.map_cons, List.map_nil, List.append_assoc,
    List.singleton_append] using hi

variable [DecidableEq T]

def Connection.send (s : Connection T) (t : T) (a : Access) (stack : MemRwReq) (link : Link) (sent : ℤ) :
    Connection T :=
  let req := a.request stack
  let r := sendToServer s.fd link sent
  if r.2 ≠ 0 then { s with fd := r.1, log := s.log ++ [⟨t, a, none, none, -1, none⟩] }
  else { s with
    fd := r.1
    threads := Function.update s.threads t (some ⟨a, req, s.sent⟩)
    sent := s.sent + 1
    requests := s.requests ++ [(s.sent, req)] }

def Connection.recv (s : Connection T) (t : T) (w : Waiting) (link : Link) (resp : ℕ × MemRwReq)
    (rest : List (ℕ × MemRwReq)) : Connection T :=
  let r := recvFromServer s.fd link sizeofMemRwReq resp.2.bytes w.req
  let threads := Function.update s.threads t none
  if r.2.1 ≠ 0 then
    { s with fd := r.1, threads := threads, log := s.log ++ [⟨t, w.access, some w.number, none, -1, none⟩] }
  else
    { s with
      fd := r.1
      threads := threads
      responses := rest
      log := s.log ++ [⟨t, w.access, some w.number, some resp, w.access.reply r.2.2⟩] }

def Connection.step (s : Connection T) : Step T → Option (Connection T)
  | .send t access stack link sent =>
    match s.threads t with
    | none => some (s.send t access stack link sent)
    | some _ => none
  | .answer resp =>
    match s.requests with
    | [] => none
    | (k, _) :: rest => some { s with requests := rest, responses := s.responses ++ [(k, resp)] }
  | .recv t link =>
    match s.threads t, s.responses with
    | some w, resp :: rest => some (s.recv t w link resp rest)
    | _, _ => none

theorem Connection.step_cases {s s' : Connection T} {x : Step T} (h : s.step x = some s') :
    (∃ t a stack link sent, x = .send t a stack link sent ∧ s.threads t = none ∧
      s' = s.send t a stack link sent) ∨
    (∃ resp k req rest, x = .answer resp ∧ s.requests = (k, req) :: rest ∧
      s' = { s with requests := rest, responses := s.responses ++ [(k, resp)] }) ∨
    (∃ t w link resp rest, x = .recv t link ∧ s.threads t = some w ∧ s.responses = resp :: rest ∧
      s' = s.recv t w link resp rest) := by
  cases x with
  | send t a stack link sent =>
    simp only [step] at h
    split at h
    · exact .inl ⟨t, a, stack, link, sent, rfl, ‹_›, (Option.some.inj h).symm⟩
    · cases h
  | answer resp =>
    simp only [step] at h
    split at h
    · cases h
    · exact .inr (.inl ⟨resp, _, _, _, rfl, ‹_›, (Option.some.inj h).symm⟩)
  | recv t link =>
    simp only [step] at h
    split at h
    · exact .inr (.inr ⟨t, _, link, _, _, rfl, ‹_›, ‹_›, (Option.some.inj h).symm⟩)
    · cases h

theorem Connection.send_failed {s : Connection T} {link : Link} {sent : ℤ}
    (h : TcpClient.connected s.fd link < 0 ∨ sent < 0) (t : T) (a : Access) (stack : MemRwReq) :
    s.send t a stack link sent =
      { s with fd := TcpClient.connected s.fd link, log := s.log ++ [⟨t, a, none, none, -1, none⟩] } := by
  have hsend : sendToServer s.fd link sent = (TcpClient.connected s.fd link, -1) := by
    rcases h with h | h
    · simp only [sendToServer, if_pos h]
    · simp only [sendToServer, if_pos h, ite_self]
  rw [send, hsend]
  rfl

theorem Connection.send_done {s : Connection T} {link : Link} {sent : ℤ} (hfd : 0 ≤ TcpClient.connected s.fd link)
    (hsent : 0 ≤ sent) (t : T) (a : Access) (stack : MemRwReq) : s.send t a stack link sent =
      { s with
        fd := TcpClient.connected s.fd link
        threads := Function.update s.threads t (some ⟨a, a.request stack, s.sent⟩)
        sent := s.sent + 1
        requests := s.requests ++ [(s.sent, a.request stack)] } := by
  have hsend : sendToServer s.fd link sent = (TcpClient.connected s.fd link, 0) := by
    simp only [sendToServer, if_neg (Int.not_lt.mpr hfd), if_neg (Int.not_lt.mpr hsent)]
  rw [send, hsend]
  rfl

theorem Connection.recv_done {s : Connection T} (h : 0 ≤ s.fd) (t : T) (w : Waiting) (link : Link)
    (resp : ℕ × MemRwReq) (rest : List (ℕ × MemRwReq)) : s.recv t w link resp rest =
      { s with
        threads := Function.update s.threads t none
        responses := rest
        log := s.log ++ [⟨t, w.access, some w.number, some resp, w.access.reply resp.2⟩] } := by
  have hlen : ¬((sizeofMemRwReq : ℕ) : ℤ) < 0 := Int.not_lt.mpr (Int.natCast_nonneg _)
  have hrecv : recvFromServer s.fd link sizeofMemRwReq resp.2.bytes w.req = (s.fd, 0, resp.2) := by
    simp only [recvFromServer, connected_of_nonneg h, if_neg (Int.not_lt.mpr h), if_neg hlen, Int.toNat_natCast,
      MemRwReq.received_whole, MemRwReq.ofBytes_bytes]
  simp only [recv, hrecv, ne_eq, not_true, if_false]

theorem Connection.send_matched {s : Connection T} (h : s.Matched) {t : T} (ht : s.threads t = none) (a : Access)
    (stack : MemRwReq) (link : Link) (sent : ℤ) : (s.send t a stack link sent).Matched := by
  by_cases hfail : TcpClient.connected s.fd link < 0 ∨ sent < 0
  · rw [send_failed hfail]
    refine ⟨h.issued, ?_, paired_append h.paired (paired_failed _ _ _ _ _)⟩
    intro u w hu
    have hs := h.connected u w hu
    rwa [connected_of_nonneg hs]
  · obtain ⟨hfd, hsent⟩ : 0 ≤ TcpClient.connected s.fd link ∧ 0 ≤ sent := by omega
    rw [send_done hfd hsent]
    refine ⟨?_, fun _ _ _ => hfd, h.paired⟩
    have hfree : s.numbers t = none := by simp only [numbers, Function.comp_apply, ht, Option.map_none]
    have hissue := h.issued.issue hfree
    simpa only [numbers, pending, Function.comp_update, Option.map_some, List.map_append, List.map_cons, List.map_nil,
      List.append_assoc] using hissue

theorem Connection.recv_matched {s : Connection T} (h : s.Matched) {t : T} {w : Waiting} (ht : s.threads t = some w)
    {resp : ℕ × MemRwReq} {rest : List (ℕ × MemRwReq)} (hr : s.responses = resp :: rest)
    (hmin : ∀ u, ∀ w' ∈ s.threads u, w.number ≤ w'.number) (link : Link) : (s.recv t w link resp rest).Matched := by
  rw [recv_done (h.connected t w ht)]
  obtain ⟨k, req⟩ := resp
  have hi := h.issued
  rw [pending, hr, List.cons_append, List.map_cons] at hi
  have hnumber : s.numbers t = some w.number := by simp only [numbers, Function.comp_apply, ht, Option.map_some]
  have hle : ∀ u n, s.numbers u = some n → w.number ≤ n := by
    intro u n hu
    obtain ⟨w', hw', rfl⟩ := Option.map_eq_some_iff.mp hu
    exact hmin u w' hw'
  obtain rfl : w.number = k := hi.front_eq hnumber hle
  refine ⟨?_, ?_, paired_append h.paired (paired_own _ _ _ _)⟩
  · simpa only [numbers, pending, Function.comp_update, Option.map_none] using hi.serve hnumber
  · intro u w' hu
    rcases eq_or_ne u t with rfl | hne
    · exact h.connected u w ht
    · exact h.connected u w' ((Function.update_of_ne hne _ _).symm.trans hu)

theorem Connection.step_matched {s s' : Connection T} {x : Step T} (h : s.Matched) (hx : s.step x = some s')
    (ho : InOrder s x s') : s'.Matched := by
  obtain ⟨t, a, stack, link, sent, rfl, ht, rfl⟩ | ⟨resp, k, req, rest, rfl, hr, rfl⟩ |
    ⟨t, w, link, resp, rest, rfl, ht, hr, rfl⟩ := step_cases hx
  · exact send_matched h ht a stack link sent
  · exact answer_matched h hr resp
  · exact recv_matched h ht hr (ho w ht) link

theorem responses_paired (fd : ℤ) (xs : List (Step T)) (s : Connection T)
    (ho : Along Connection.step InOrder (.start fd) xs) (hr : Runs.run Connection.step (.start fd) xs = some s) :
    ∀ e ∈ s.log, e.Paired := by
  have hinv : s.Matched :=
    run_invariant (fun _ _ _ h hx ho => Connection.step_matched h hx ho) xs (Connection.start_matched fd) ho hr
  exact hinv.paired

instance [Fintype T] (s : Connection T) : (x : Step T) → (s' : Connection T) → Decidable (InOrder s x s')
  | .recv t _, _ =>
    inferInstanceAs (Decidable (∀ w ∈ s.threads t, ∀ u, ∀ w' ∈ s.threads u, w.number ≤ w'.number))
  | .send _ _ _ _ _, _ => isTrue trivial
  | .answer _, _ => isTrue trivial

def inTurn : List (Step Bool) :=
  [.send false (.read 0x40) ⟨0, 0, 0, 0⟩ ⟨5, 0⟩ 32, .send true (.read 0x40) ⟨0, 0, 0, 0⟩ ⟨-1, -1⟩ 32,
    .answer ⟨memRwCmdR, 0x40, 1, memRwRespOk⟩, .recv false ⟨-1, -1⟩,
    .answer ⟨memRwCmdR, 0x40, 2, memRwRespOk⟩, .recv true ⟨-1, -1⟩]

theorem responses_paired_inTurn : ∃ s, Runs.run Connection.step (.start (-1)) inTurn = some s ∧
    s.log.map Returned.ret = [(0, some 1), (0, some 2)] ∧ ∀ e ∈ s.log, e.Paired := by
  have ho : Along Connection.step InOrder (.start (-1)) inTurn := by decide
  have hr : (Runs.run Connection.step (.start (-1)) inTurn).map (fun s => s.log.map Returned.ret) =
      some [(0, some 1), (0, some 2)] := by decide
  obtain ⟨s, hs, hlog⟩ := Option.map_eq_some_iff.mp hr
  exact ⟨s, hs, hlog, responses_paired (-1) inTurn s ho hs⟩

def crossed : List (Step Bool) :=
  [.send false (.read 0x40) ⟨0, 0, 0, 0⟩ ⟨5, 0⟩ 32, .send true (.read 0x40) ⟨0, 0, 0, 0⟩ ⟨-1, -1⟩ 32,
    .answer ⟨memRwCmdR, 0x40, 1, memRwRespOk⟩, .recv true ⟨-1, -1⟩]

theorem responses_crossed : ∃ s, Runs.run Connection.step (.start (-1)) crossed = some s ∧
    s.log = [⟨true, .read 0x40, some 1, some (0, ⟨memRwCmdR, 0x40, 1, memRwRespOk⟩), 0, some 1⟩] ∧
    ¬∀ e ∈ s.log, e.Paired := by
  have hr : (Runs.run Connection.step (.start (-1)) crossed).map Connection.log =
      some [⟨true, .read 0x40, some 1, some (0, ⟨memRwCmdR, 0x40, 1, memRwRespOk⟩), 0, some 1⟩] := by decide
  obtain ⟨s, hs, hlog⟩ := Option.map_eq_some_iff.mp hr
  refine ⟨s, hs, hlog, fun h => ?_⟩
  obtain ⟨k, resp, hk, hresp, -⟩ := h _ (hlog ▸ List.mem_cons_self) rfl
  cases hk
  cases hresp

end Pciemu.TcpClient
