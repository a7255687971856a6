import Pciemu.Pairing

namespace Pciemu.TcpClient

open Runs

def auroraReadDevmemByAddr (fd : ℤ) (x : Exchange) (stack : MemRwReq) (addr : UInt64) : ℤ × ℤ × Option UInt64 :=
  tcpSendMemReadReq fd x stack addr

def auroraWriteDevmemByAddr (fd : ℤ) (x : Exchange) (stack : MemRwReq) (addr value : UInt64) :
    ℤ × ℤ × Option UInt64 :=
  tcpSendMemWriteReq fd x stack addr value

def glueReadDevmemByAddr (fd : ℤ) (x : Exchange) (stack : MemRwReq) (addr : UInt64) : ℤ × ℤ × Option UInt64 :=
  auroraReadDevmemByAddr fd x stack addr

def glueWriteDevmemByAddr (fd : ℤ) (x : Exchange) (stack : MemRwReq) (addr value : UInt64) : ℤ × ℤ × Option UInt64 :=
  auroraWriteDevmemByAddr fd x stack addr value

def pciemuMembarRead (fd : ℤ) (x : Exchange) (stack : MemRwReq) (addr : UInt64) (_size : ℕ) : ℤ × UInt64 :=
  let r := glueReadDevmemByAddr fd x stack addr
  (r.1, r.2.2.getD (~~~0))

def pciemuMembarWrite (fd : ℤ) (x : Exchange) (stack : MemRwReq) (addr val : UInt64) (_size : ℕ) : ℤ :=
  (glueWriteDevmemByAddr fd x stack addr val).1

def zeroed : MemRwReq := ⟨0, 0, 0, 0⟩

def answer (req : MemRwReq) : Option MemRwReq :=
  if req.cmd = memRwCmdR then some { req with value := req.addr, resp := memRwRespOk }
  else if req.cmd = memRwCmdW then some { req with value := req.addr, resp := memRwRespOk }
  else none

-- the loop clears `req` after each turn
def tcpServer (req msg : MemRwReq) : MemRwReq × Option MemRwReq :=
  (zeroed, answer (req.received sizeofMemRwReq msg.bytes))

structure Session (σ : Type) where
  conn : Connection Unit
  server : σ
  answered : List MemRwReq

inductive Turn
  | call (access : Access) (stack : MemRwReq) (link : Link)
  | serve
  | receive (link : Link)

variable {σ : Type}

def Session.start (fd : ℤ) (st : σ) : Session σ := ⟨.start fd, st, []⟩

def Session.step (srv : σ → MemRwReq → σ × Option MemRwReq) (s : Session σ) : Turn → Option (Session σ)
  | .call access stack link =>
    (s.conn.step (.send () access stack link sizeofMemRwReq)).map fun c => { s with conn := c }
  | .serve =>
    match s.conn.requests with
    | [] => none
    | (_, req) :: rest =>
      match srv s.server req with
      | (st, none) => some { s with conn := { s.conn with requests := rest }, server := st }
      | (st, some resp) => (s.conn.step (.answer resp)).map fun c => ⟨c, st, s.answered ++ [resp]⟩
  | .receive link => (s.conn.step (.recv () link)).map fun c => { s with conn := c }

def whole (link link' : Link) (resp : MemRwReq) : Exchange :=
  ⟨link, sizeofMemRwReq, link', sizeofMemRwReq, resp.bytes⟩

structure Decided (fd : ℤ) (e : Returned Unit) (resp : MemRwReq) : Prop where
  ret : ∀ link link' stack, e.ret = (tcpSendMemReq fd (whole link link' resp) stack e.access).2
  read : ∀ addr, e.access = .read addr →
    e.ret = if resp.addr = addr ∧ resp.resp = memRwRespOk then (0, some resp.value) else (-1, some 0xdeadbeef)
  membar : ∀ addr, e.access = .read addr → ∀ link link' stack size,
    pciemuMembarRead fd (whole link link' resp) stack addr size =
      (fd, if resp.addr = addr ∧ resp.resp = memRwRespOk then resp.value else 0xdeadbeef)
  write : ∀ addr value, e.access = .write addr value →
    e.ret.1 = if resp.addr = addr ∧ resp.resp = memRwRespOk then 0 else -1

structure InStep (srv : σ → MemRwReq → σ × Option MemRwReq) (s : Session σ) : Prop where
  unread : s.conn.threads () = none →
    s.conn.requests = [] ∧ s.conn.responses = [] ∧ s.answered.length = s.conn.log.length
  decided : ∀ (k : ℕ) (e : Returned Unit), s.conn.log[k]? = some e →
    ∃ resp, s.answered[k]? = some resp ∧ e.response = some (k, resp) ∧ Decided s.conn.fd e resp
  proceeds : s.conn.threads () = none → ∀ a stack link link', ∃ s',
    Runs.run (Session.step srv) s [.call a stack link, .serve, .receive link'] = some s' ∧
      s'.conn.log.length = s.conn.log.length + 1

theorem tcpSendMemReq_whole {fd : ℤ} (hfd : 0 ≤ fd) (link link' : Link) (resp stack : MemRwReq) (a : Access) :
    tcpSendMemReq fd (whole link link' resp) stack a = (fd, a.reply resp) := by
  have h := tcpSendMemReq_connected hfd (whole link link' resp) (Int.natCast_nonneg _) (Int.natCast_nonneg _) stack a
  simp only [whole, Int.toNat_natCast, MemRwReq.received_whole, MemRwReq.ofBytes_bytes] at h
  exact h

theorem reply_read (addr : UInt64) (resp : MemRwReq) : (Access.read addr).reply resp =
    if resp.addr = addr ∧ resp.resp = memRwRespOk then (0, some resp.value) else (-1, some 0xdeadbeef) := by
  simp only [Access.reply, MemRwReq.accepted, Bool.and_eq_true, decide_eq_true_eq]

theorem reply_write (addr value : UInt64) (resp : MemRwReq) : ((Access.write addr value).reply resp).1 =
    if resp.addr = addr ∧ resp.resp = memRwRespOk then 0 else -1 := by
  simp only [Access.reply, MemRwReq.accepted, Bool.and_eq_true, decide_eq_true_eq]
  split_ifs <;> rfl

theorem decided_reply {fd : ℤ} (hfd : 0 ≤ fd) {e : Returned Unit} {resp : MemRwReq}
    (he : e.ret = e.access.reply resp) : Decided fd e resp where
  ret := by
    intro link link' stack
    rw [tcpSendMemReq_whole hfd, he]
  read := by
    intro addr ha
    rw [he, ha, reply_read]
  membar := by
    intro addr ha link link' stack size
    simp only [pciemuMembarRead, glueReadDevmemByAddr, auroraReadDevmemByAddr, tcpSendMemReadReq,
      tcpSendMemReq_whole hfd, reply_read]
    split_ifs <;> rfl
  write := by
    intro addr value ha
    rw [he, ha, reply_write]

section Steps

variable {srv : σ → MemRwReq → σ × Option MemRwReq} {s : Session σ}

theorem Session.step_call (hfd : 0 ≤ s.conn.fd) (ht : s.conn.threads () = none) (a : Access) (stack : MemRwReq)
    (link : Link) : s.step srv (.call a stack link) =
      some { s with conn := { s.conn with
        threads := Function.update s.conn.threads () (some ⟨a, a.request stack, s.conn.sent⟩)
        sent := s.conn.sent + 1
        requests := s.conn.requests ++ [(s.conn.sent, a.request stack)] } } := by
  have hc := connected_of_nonneg hfd link
  simp only [step, Connection.step, ht, Connection.send_done (hc.symm ▸ hfd : 0 ≤ TcpClient.connected s.conn.fd link)
    (Int.natCast_nonneg _), hc, Option.map_some]

theorem Session.step_serve {k : ℕ} {req resp : MemRwReq} {rest : List (ℕ × MemRwReq)} {st : σ}
    (hq : s.conn.requests = (k, req) :: rest) (hr : srv s.server req = (st, some resp)) : s.step srv .serve =
      some ⟨{ s.conn with requests := rest, responses := s.conn.responses ++ [(k, resp)] }, st,
        s.answered ++ [resp]⟩ := by
  simp only [step, hq, hr, Connection.step, Option.map_some]

theorem Session.step_receive (hfd : 0 ≤ s.conn.fd) {w : Waiting} (ht : s.conn.threads () = some w)
    {resp : ℕ × MemRwReq} {rest : List (ℕ × MemRwReq)} (hp : s.conn.responses = resp :: rest) (link : Link) :
    s.step srv (.receive link) =
      some { s with conn := { s.conn with
        threads := Function.update s.conn.threads () none
        responses := rest
        log := s.conn.log ++ [⟨(), w.access, some w.number, some resp, w.access.reply resp.2⟩] } } := by
  simp only [step, Connection.step, ht, hp, Connection.recv_done hfd, Option.map_some]

end Steps

inductive Phase (P : Access → MemRwReq → Prop) (s : Session σ) : Prop
  | idle (ht : s.conn.threads () = none) (hq : s.conn.requests = []) (hp : s.conn.responses = [])
      (hs : s.conn.sent = s.conn.log.length) (hn : s.answered.length = s.conn.log.length)
  | asked (a : Access) (stack : MemRwReq)
      (ht : s.conn.threads () = some ⟨a, a.request stack, s.conn.log.length⟩)
      (hq : s.conn.requests = [(s.conn.log.length, a.request stack)]) (hp : s.conn.responses = [])
      (hs : s.conn.sent = s.conn.log.length + 1) (hn : s.answered.length = s.conn.log.length)
  | answered (a : Access) (stack resp : MemRwReq)
      (ht : s.conn.threads () = some ⟨a, a.request stack, s.conn.log.length⟩) (hq : s.conn.requests = [])
      (hp : s.conn.responses = [(s.conn.log.length, resp)]) (hs : s.conn.sent = s.conn.log.length + 1)
      (hn : s.answered.length = s.conn.log.length + 1) (hr : s.answered[s.conn.log.length]? = some resp) (hP : P a resp)

structure Kept (P : Access → MemRwReq → Prop) (s : Session σ) : Prop where
  connected : 0 ≤ s.conn.fd
  phase : Phase P s
  log : ∀ (k : ℕ) (e : Returned Unit), s.conn.log[k]? = some e → ∃ resp, s.answered[k]? = some resp ∧ e.response = some (k, resp) ∧
    e.ret = e.access.reply resp ∧ P e.access resp

theorem Kept.start (P : Access → MemRwReq → Prop) {fd : ℤ} (hfd : 0 ≤ fd) (st : σ) :
    Kept P (Session.start fd st) :=
  ⟨hfd, .idle rfl rfl rfl rfl rfl, fun k e he => by cases he⟩

section Kept

variable {srv : σ → MemRwReq → σ × Option MemRwReq} {P : Access → MemRwReq → Prop}
  (hsrv : ∀ st a stack, ∃ st' resp, srv st (Access.request stack a) = (st', some resp) ∧ P a resp)
  {s s' : Session σ} (h : Kept P s)

include h

theorem Kept.call {a : Access} {stack : MemRwReq} {link : Link} (hs : s.step srv (.call a stack link) = some s') :
    Kept P s' := by
  have hbusy {w : Waiting} (ht : s.conn.threads () = some w) : False := by
    simp only [Session.step, Connection.step, ht, Option.map_none] at hs
    cases hs
  cases h.phase with
  | idle ht hq hp hsent hn =>
    rw [Session.step_call h.connected ht, hq, hsent] at hs
    obtain rfl := Option.some.inj hs
    exact ⟨h.connected, .asked a stack (by simp only [Function.update_self]) rfl hp rfl hn, h.log⟩
  | asked _ _ ht => exact (hbusy ht).elim
  | answered _ _ _ ht => exact (hbusy ht).elim

theorem Kept.receive {link : Link} (hs : s.step srv (.receive link) = some s') : Kept P s' := by
  have hempty (hp : s.conn.responses = []) : False := by
    cases ht : s.conn.threads () <;> simp [Session.step, Connection.step, hp, ht] at hs
  cases h.phase with
  | idle _ _ hp => exact (hempty hp).elim
  | asked _ _ _ _ hp => exact (hempty hp).elim
  | answered a stack resp ht hq hp hsent hn hr hP =>
    rw [Session.step_receive h.connected ht hp] at hs
    obtain rfl := Option.some.inj hs
    refine ⟨h.connected, .idle (by simp only [Function.update_self]) hq rfl ?_ ?_, ?_⟩
    · rw [hsent, List.length_append, List.length_singleton]
    · rw [hn, List.length_append, List.length_singleton]
    · intro k e he
      rcases Nat.lt_or_ge k s.conn.log.length with hk | hk
      · rw [List.getElem?_append_left hk] at he
        exact h.log k e he
      · rw [List.getElem?_append_right hk, List.getElem?_singleton] at he
        split_ifs at he with hz
        obtain rfl : k = s.conn.log.length := by omega
        obtain rfl := Option.some.inj he
        exact ⟨resp, hr, rfl, rfl, hP⟩

include hsrv

theorem Kept.serve (hs : s.step srv .serve = some s') : Kept P s' := by
  have hempty (hq : s.conn.requests = []) : False := by
    simp only [Session.step, hq] at hs
    cases hs
  cases h.phase with
  | idle _ hq => exact (hempty hq).elim
  | answered _ _ _ _ hq => exact (hempty hq).elim
  | asked a stack ht hq hp hsent hn =>
    obtain ⟨st, resp, hresp, hP⟩ := hsrv s.server a stack
    rw [Session.step_serve hq hresp, hp] at hs
    obtain rfl := Option.some.inj hs
    refine ⟨h.connected, .answered a stack resp ht rfl rfl hsent ?_ ?_ hP, ?_⟩
    · rw [List.length_append, List.length_singleton, hn]
    · rw [← hn]
      exact List.getElem?_concat_length
    · intro k e he
      obtain ⟨r, hr, hrest⟩ := h.log k e he
      have hk : k < s.answered.length := (List.getElem?_eq_some_iff.mp hr).1
      exact ⟨r, by rw [List.getElem?_append_left hk, hr], hrest⟩

theorem Kept.step {turn : Turn} (hs : s.step srv turn = some s') : Kept P s' := by
  cases turn with
  | call a stack link => exact h.call hs
  | serve => exact Kept.serve hsrv h hs
  | receive link => exact h.receive hs

theorem Kept.proceeds (ht : s.conn.threads () = none) (a : Access) (stack : MemRwReq) (link link' : Link) :
    ∃ s', Runs.run (Session.step srv) s [.call a stack link, .serve, .receive link'] = some s' ∧
      s'.conn.log.length = s.conn.log.length + 1 := by
  obtain ⟨hq, hp⟩ : s.conn.requests = [] ∧ s.conn.responses = [] := by
    cases h.phase with
    | idle _ hq hp => exact ⟨hq, hp⟩
    | asked _ _ ht' => cases ht.symm.trans ht'
    | answered _ _ _ ht' => cases ht.symm.trans ht'
  obtain ⟨st, resp, hresp, -⟩ := hsrv s.server a stack
  let w : Waiting := ⟨a, a.request stack, s.conn.sent⟩
  let s₁ : Session σ := { s with conn := { s.conn with
    threads := Function.update s.conn.threads () (some w), sent := s.conn.sent + 1, requests := [(s.conn.sent, w.req)] } }
  let s₂ : Session σ :=
    ⟨{ s₁.conn with requests := [], responses := [(s.conn.sent, resp)] }, st, s.answered ++ [resp]⟩
  have hcall : s.step srv (.call a stack link) = some s₁ := by
    rw [Session.step_call h.connected ht, hq]
    rfl
  have hserve : s₁.step srv .serve = some s₂ := by
    have hrest : s₁.conn.responses = [] := hp
    rw [Session.step_serve (rfl : s₁.conn.requests = [(s.conn.sent, w.req)]) hresp, hrest]
    rfl
  have ht₂ : s₂.conn.threads () = some w := by simp only [s₂, s₁, Function.update_self]
  have hreceive : s₂.step srv (.receive link') = _ :=
    Session.step_receive (show 0 ≤ s₂.conn.fd from h.connected) ht₂ rfl link'
  refine ⟨_, (run_cons _ hcall).trans ((run_cons _ hserve).trans ((run_singleton _ _).trans hreceive)), ?_⟩
  exact List.length_append

theorem Kept.inStep : InStep srv s where
  unread := by
    intro ht
    cases h.phase with
    | idle _ hq hp _ hn => exact ⟨hq, hp, hn⟩
    | asked _ _ ht' => cases ht.symm.trans ht'
    | answered _ _ _ ht' => cases ht.symm.trans ht'
  decided := by
    intro k e he
    obtain ⟨resp, hr, hresp, hret, -⟩ := h.log k e he
    exact ⟨resp, hr, hresp, decided_reply h.connected hret⟩
  proceeds := Kept.proceeds hsrv h

end Kept

theorem run_kept {srv : σ → MemRwReq → σ × Option MemRwReq} {P : Access → MemRwReq → Prop}
    (hsrv : ∀ st a stack, ∃ st' resp, srv st (Access.request stack a) = (st', some resp) ∧ P a resp)
    {fd : ℤ} (hfd : 0 ≤ fd) (st : σ) (turns : List Turn) {s : Session σ}
    (hr : Runs.run (Session.step srv) (.start fd st) turns = some s) : Kept P s :=
  run_invariant (P := fun _ _ _ => True) (fun _ _ _ h hs _ => Kept.step hsrv h hs) turns (Kept.start P hfd st)
    (along_of_forall _ turns fun _ _ => trivial) hr

theorem tcpServer_answers (st stack : MemRwReq) (a : Access) : ∃ st' resp,
    tcpServer st (a.request stack) = (st', some resp) ∧
      resp.addr = a.addr ∧ resp.value = a.addr ∧ resp.resp = memRwRespOk := by
  cases a with
  | read addr =>
    refine ⟨zeroed, ⟨memRwCmdR, addr, addr, memRwRespOk⟩, ?_, rfl, rfl, rfl⟩
    simp only [tcpServer, answer, MemRwReq.received_whole, MemRwReq.ofBytes_bytes, Access.request, if_true]
  | write addr value =>
    refine ⟨zeroed, ⟨memRwCmdW, addr, addr, memRwRespOk⟩, ?_, rfl, rfl, rfl⟩
    have hne : memRwCmdW ≠ memRwCmdR := by decide
    simp only [tcpServer, answer, MemRwReq.received_whole, MemRwReq.ofBytes_bytes, Access.request, hne, if_true,
      if_false]

theorem client_server_in_step (fd : ℤ) (hfd : 0 ≤ fd) :
    (∀ (σ : Type) (srv : σ → MemRwReq → σ × Option MemRwReq), (∀ st req, (srv st req).2.isSome) →
      ∀ st turns s, Runs.run (Session.step srv) (.start fd st) turns = some s → InStep srv s) ∧
    ∀ st turns s, Runs.run (Session.step tcpServer) (.start fd st) turns = some s → InStep tcpServer s ∧
      ∀ e ∈ s.conn.log, e.ret.1 = 0 ∧ ∀ addr, e.access = .read addr → e.ret.2 = some addr := by
  constructor
  · intro σ srv hans st turns s hr
    have hsrv : ∀ st a stack, ∃ st' resp, srv st (Access.request stack a) = (st', some resp) ∧ True := by
      intro st a stack
      obtain ⟨resp, hresp⟩ := Option.isSome_iff_exists.mp (hans st (a.request stack))
      exact ⟨(srv st (a.request stack)).1, resp, by rw [← hresp], trivial⟩
    exact Kept.inStep hsrv (run_kept hsrv hfd st turns hr)
  · intro st turns s hr
    have hsrv := fun st a stack => tcpServer_answers st stack a
    have hk := run_kept hsrv hfd st turns hr
    refine ⟨Kept.inStep hsrv hk, ?_⟩
    intro e he
    obtain ⟨k, hk'⟩ := List.mem_iff_getElem?.mp he
    obtain ⟨resp, -, -, hret, haddr, hval, hok⟩ := hk.log k e hk'
    rw [hret]
    cases hacc : e.access with
    | read addr =>
      rw [hacc] at haddr hval
      rw [reply_read, if_pos ⟨haddr, hok⟩, hval]
      refine ⟨rfl, ?_⟩
      rintro addr' ⟨⟩
      rfl
    | write addr value =>
      rw [hacc] at haddr
      rw [reply_write, if_pos ⟨haddr, hok⟩]
      refine ⟨rfl, ?_⟩
      rintro addr' ⟨⟩

theorem client_server_in_step_twice :
    let turns := [.call (.read 0x40) ⟨0, 0, 0, 0⟩ ⟨-1, -1⟩, .serve, .receive ⟨-1, -1⟩,
      .call (.write 0x48 7) ⟨0, 0, 0, 0⟩ ⟨-1, -1⟩, .serve, .receive ⟨-1, -1⟩]
    ∃ s, Runs.run (Session.step tcpServer) (.start 5 ⟨0, 0, 0, 0⟩) turns = some s ∧
      s.conn.log.map Returned.ret = [(0, some 0x40), (0, none)] ∧ InStep tcpServer s := by
  intro turns
  have hr : (Runs.run (Session.step tcpServer) (.start 5 ⟨0, 0, 0, 0⟩) turns).map
      (fun s => s.conn.log.map Returned.ret) = some [(0, some 0x40), (0, none)] := by decide
  obtain ⟨s, hs, hlog⟩ := Option.map_eq_some_iff.mp hr
  exact ⟨s, hs, hlog, ((client_server_in_step 5 (by decide)).2 _ turns s hs).1⟩

end Pciemu.TcpClient
