import Pciemu.Framing
import Pciemu.LockStep

namespace Pciemu.TcpServer

open Bytes TcpClient Runs

/-- What the child sends, where `recv` returns these numbers of bytes of `stream`, none at the end of
the connection or on an error. The loop starts with `req` as it is on the stack. -/
def childLoop (req : MemRwReq) : List ℕ → (ℕ → UInt8) → List MemRwReq
  | [], _ => []
  | n :: ns, stream => (answer (req.received n stream)).toList ++ childLoop zeroed ns fun i => stream (n + i)

def answers (total : ℕ) (stream : ℕ → UInt8) : List MemRwReq :=
  (List.range (total / sizeofMemRwReq)).filterMap fun k => answer (response stream k)

theorem received_none (req : MemRwReq) (stream : ℕ → UInt8) : req.received 0 stream = req :=
  MemRwReq.received_same req 0 stream fun i hi => absurd hi (Nat.not_lt_zero i)

theorem answer_zeroed : answer zeroed = none := by decide

theorem answers_add (n : ℕ) (stream : ℕ → UInt8) :
    answers (sizeofMemRwReq + n) stream =
      (answer (.ofBytes stream)).toList ++ answers n fun i => stream (sizeofMemRwReq + i) := by
  have hdiv : (sizeofMemRwReq + n) / sizeofMemRwReq = n / sizeofMemRwReq + 1 :=
    Nat.add_div_left n (by decide)
  have hfirst : response stream 0 = .ofBytes stream := by simp only [response, Nat.mul_zero, Nat.zero_add]
  rw [answers, hdiv, List.range_succ_eq_map, List.filterMap_cons, List.filterMap_map, hfirst]
  have hrest : (fun k => answer (response stream k)) ∘ Nat.succ =
      fun k => answer (response (fun i => stream (sizeofMemRwReq + i)) k) := by
    funext k
    rw [Function.comp_apply, response_succ]
  rw [hrest]
  cases answer (.ofBytes stream) <;> rfl

theorem childLoop_whole (ns : List ℕ) (h : ∀ n ∈ ns, n = 0 ∨ n = sizeofMemRwReq) (stream : ℕ → UInt8) :
    childLoop zeroed ns stream = answers ns.sum stream := by
  induction ns generalizing stream with
  | nil => rfl
  | cons n ns ih =>
    have hrest := ih fun m hm => h m (List.mem_cons_of_mem n hm)
    rw [childLoop, hrest, List.sum_cons]
    obtain rfl | rfl := h n List.mem_cons_self
    · rw [received_none, answer_zeroed]
      simp only [Nat.zero_add, Option.toList_none, List.nil_append]
    · rw [MemRwReq.received_whole, answers_add]

theorem zeroed_bytes (i : ℕ) : zeroed.bytes i = 0 := by
  have hbyte (j : ℕ) : byteOf 0 j = 0 := by simp [byteOf]
  simp only [zeroed, MemRwReq.bytes, storeWord, splice, UInt64.toNat_zero, hbyte, ite_self]

theorem piece_answered {n : ℕ} (hn : 0 < n) (stream : ℕ → UInt8) (h0 : stream 0 = 1)
    (hrest : ∀ i, 0 < i → i < 8 → i < n → stream i = 0) :
    ∃ resp, answer (zeroed.received n stream) = some resp := by
  have hcmd : (zeroed.received n stream).cmd = memRwCmdR := by
    have hbytes : ∀ i < 8, splice zeroed.bytes 0 n stream (0 + i) = byteOf 1 i := by
      intro i hi
      rw [Nat.zero_add]
      obtain rfl | hpos := Nat.eq_zero_or_pos i
      · rw [splice, if_pos ⟨Nat.le_refl 0, by omega⟩, Nat.sub_zero, h0]
        decide
      · have hone : byteOf 1 i = 0 := by
          rw [byteOf, Nat.div_eq_of_lt (Nat.one_lt_pow (by omega) (by decide))]
          rfl
        rw [hone, splice]
        split_ifs with hin
        · exact hrest i hpos hi (by omega)
        · exact zeroed_bytes i
    change wordAt (splice zeroed.bytes 0 n stream) 0 = 1
    rw [wordAt, natAt_byteOf _ _ _ 1 hbytes]
    decide
  exact ⟨_, if_pos hcmd⟩

theorem childLoop_answers {ns : List ℕ} (hne : ∃ n ∈ ns, 0 < n) (stream : ℕ → UInt8) (h0 : stream 0 = 1)
    (hrest : ∀ i, 0 < i → stream i = 0) : childLoop zeroed ns stream ≠ [] := by
  induction ns with
  | nil =>
    obtain ⟨n, hn, -⟩ := hne
    cases hn
  | cons n ns ih =>
    obtain rfl | hpos := Nat.eq_zero_or_pos n
    · have hskip : childLoop zeroed (0 :: ns) stream = childLoop zeroed ns stream := by
        rw [childLoop, received_none, answer_zeroed]
        simp only [Nat.zero_add, Option.toList_none, List.nil_append]
      rw [hskip]
      apply ih
      obtain ⟨m, hm, hpos⟩ := hne
      obtain rfl | hm := List.mem_cons.mp hm
      · exact absurd hpos (Nat.lt_irrefl 0)
      · exact ⟨m, hm, hpos⟩
    · obtain ⟨resp, hresp⟩ := piece_answered hpos stream h0 fun i hi _ _ => hrest i hi
      rw [childLoop, hresp]
      exact List.cons_ne_nil _ _

theorem answers_zero (n : ℕ) : answers n (fun _ => 0) = [] := by
  rw [answers, List.filterMap_eq_nil_iff]
  intro k _
  have hzero : response (fun _ => 0) k = zeroed := by
    rw [response, ← MemRwReq.ofBytes_bytes zeroed]
    exact congrArg MemRwReq.ofBytes (funext fun i => (zeroed_bytes i).symm)
  rw [hzero, answer_zeroed]

theorem answers_first {n : ℕ} {stream : ℕ → UInt8} (hrest : ∀ i, stream (sizeofMemRwReq + i) = 0) :
    answers n stream = if n < sizeofMemRwReq then [] else (answer (.ofBytes stream)).toList := by
  split_ifs with hn
  · rw [answers, Nat.div_eq_of_lt hn]
    rfl
  · obtain ⟨m, rfl⟩ := Nat.exists_eq_add_of_le (Nat.not_lt.mp hn)
    have hshift : (fun i => stream (sizeofMemRwReq + i)) = fun _ => 0 := funext hrest
    rw [answers_add, hshift, answers_zero, List.append_nil]

def bytesAt (is : List ℕ) (i : ℕ) : UInt8 := if i ∈ is then 1 else 0

theorem bytesAt_other {is : List ℕ} {i : ℕ} (h : i ∉ is) : bytesAt is i = 0 := if_neg h

section ShortPiece

variable {n : ℕ} (hpos : 0 < n) (ns : List ℕ)

include hpos

theorem short_command (hn : n < 8) : childLoop zeroed (n :: ns) (bytesAt [0, 7]) ≠ answers (n :: ns).sum (bytesAt [0, 7]) := by
  have hsize : sizeofMemRwReq = 32 := rfl
  obtain ⟨resp, hresp⟩ := piece_answered hpos (bytesAt [0, 7]) rfl fun i hi _ hin => bytesAt_other (by simp; omega)
  have hnone : answer (.ofBytes (bytesAt [0, 7])) = none := by decide
  rw [childLoop, hresp, answers_first fun i => bytesAt_other (by simp; omega), hnone, Option.toList_none, ite_self]
  exact List.cons_ne_nil _ _

theorem short_request (hshort : (n :: ns).sum < sizeofMemRwReq) :
    childLoop zeroed (n :: ns) (bytesAt [0]) ≠ answers (n :: ns).sum (bytesAt [0]) := by
  have hsize : sizeofMemRwReq = 32 := rfl
  obtain ⟨resp, hresp⟩ := piece_answered hpos (bytesAt [0]) rfl fun i hi _ _ => bytesAt_other (by simp; omega)
  rw [childLoop, hresp, answers_first fun i => bytesAt_other (by simp; omega), if_pos hshort]
  exact List.cons_ne_nil _ _

theorem rest_answered (hlt : n < sizeofMemRwReq) (hn : ¬n < 8) (hlong : ¬(n :: ns).sum < sizeofMemRwReq) :
    childLoop zeroed (n :: ns) (bytesAt [0, n]) ≠ answers (n :: ns).sum (bytesAt [0, n]) := by
  obtain ⟨resp, hresp⟩ := piece_answered hpos (bytesAt [0, n]) rfl fun i hi _ _ => bytesAt_other (by simp; omega)
  have hmore : ∃ m ∈ ns, 0 < m := by
    by_contra hnone
    have hsum : ns.sum = 0 := by
      apply List.sum_eq_zero
      intro m hm
      exact Nat.eq_zero_of_not_pos fun hpos => hnone ⟨m, hm, hpos⟩
    rw [List.sum_cons, hsum] at hlong
    omega
  have hnext : childLoop zeroed ns (fun i => bytesAt [0, n] (n + i)) ≠ [] := by
    apply childLoop_answers hmore
    · simp [bytesAt]
    · exact fun i hi => bytesAt_other (by simp; omega)
  rw [childLoop, hresp, answers_first fun i => bytesAt_other (by simp; omega), if_neg hlong]
  intro he
  have hlen := congrArg List.length he
  have hpos' := List.length_pos_iff.mpr hnext
  have hle : (answer (.ofBytes (bytesAt [0, n]))).toList.length ≤ 1 := by
    cases answer (.ofBytes (bytesAt [0, n])) <;> simp
  rw [List.length_append, Option.toList_some, List.length_singleton] at hlen
  omega

theorem short_piece (hlt : n < sizeofMemRwReq) :
    ∃ stream, childLoop zeroed (n :: ns) stream ≠ answers (n :: ns).sum stream := by
  by_cases hn : n < 8
  · exact ⟨_, short_command hpos ns hn⟩
  · by_cases hshort : (n :: ns).sum < sizeofMemRwReq
    · exact ⟨_, short_request hpos ns hshort⟩
    · exact ⟨_, rest_answered hpos ns hlt hn hshort⟩

end ShortPiece

theorem whole_of_exact (ns : List ℕ) (hle : ∀ n ∈ ns, n ≤ sizeofMemRwReq)
    (h : ∀ stream, childLoop zeroed ns stream = answers ns.sum stream) : ∀ n ∈ ns, n = 0 ∨ n = sizeofMemRwReq := by
  induction ns with
  | nil => exact fun n hn => absurd hn List.not_mem_nil
  | cons n ns ih =>
    have hn : n = 0 ∨ n = sizeofMemRwReq := by
      by_contra hbad
      have hlt := hle n List.mem_cons_self
      obtain ⟨stream, hne⟩ := short_piece (n := n) (by omega) ns (by omega)
      exact hne (h stream)
    refine List.forall_mem_cons.mpr ⟨hn, ih (fun m hm => hle m (List.mem_cons_of_mem n hm)) ?_⟩
    intro stream
    obtain rfl | rfl := hn
    · have hz := h stream
      rw [childLoop, received_none, answer_zeroed, List.sum_cons] at hz
      simpa only [Nat.zero_add, Option.toList_none, List.nil_append] using hz
    · have hz := h fun i => stream (i - sizeofMemRwReq)
      rw [childLoop, MemRwReq.received_whole, List.sum_cons, answers_add, List.append_cancel_left_eq] at hz
      simpa only [Nat.add_sub_cancel_left] using hz

theorem child_exact_iff (ns : List ℕ) (hle : ∀ n ∈ ns, n ≤ sizeofMemRwReq) :
    (∀ req stream, childLoop req ns stream = answers ns.sum stream) ↔
      (∀ n ∈ ns, n = 0 ∨ n = sizeofMemRwReq) ∧ ns.head? ≠ some 0 := by
  constructor
  · intro h
    refine ⟨whole_of_exact ns hle (h zeroed), ?_⟩
    intro hhead
    cases ns with
    | nil => cases hhead
    | cons n ns =>
      -- the connection ends before a request came, and the stack is taken for one
      obtain rfl := Option.some.inj hhead
      have hz := h { zeroed with cmd := memRwCmdR } fun _ => 0
      rw [childLoop, received_none, answers_zero] at hz
      exact List.cons_ne_nil _ _ hz
  · rintro ⟨h, hhead⟩ req stream
    cases ns with
    | nil => rfl
    | cons n ns =>
      obtain rfl | rfl := h n List.mem_cons_self
      · exact absurd rfl hhead
      · rw [childLoop, MemRwReq.received_whole, List.sum_cons, answers_add,
          childLoop_whole ns fun m hm => h m (List.mem_cons_of_mem _ hm)]

theorem child_exact_iff_pauses :
    (∀ req stream, childLoop req [32, 0, 32] stream = answers 64 stream) ∧
      childLoop zeroed [32, 0, 32] ((Access.read 0x40).request zeroed).bytes =
        [⟨memRwCmdR, 0x40, 0x40, memRwRespOk⟩] := by
  have h := (child_exact_iff [32, 0, 32] (by decide)).mpr ⟨by decide, by decide⟩
  exact ⟨h, by decide⟩

structure Parent where
  sockets : ℕ
  status : Option ℤ

/-- Up to the loop: a `listen` that fails is only reported. -/
def tcpServerStart (sockfd bind _listen : ℤ) : Parent :=
  if sockfd < 0 then ⟨0, some 1⟩ else if bind < 0 then ⟨1, some 1⟩ else ⟨1, none⟩

inductive ConnEvent
  | accepted (fd : ℤ) (req : MemRwReq)
  | turn (t : Turn)

def connStep (c : Option (Session MemRwReq)) : ConnEvent → Option (Option (Session MemRwReq))
  | .accepted fd req => match c with
    | none => some (some (.start fd req))
    | some _ => none
  | .turn t => c.bind fun s => (s.step tcpServer t).map some

structure Processes (ι : Type) where
  parent : Parent
  conn : ι → Option (Session MemRwReq)

inductive Event (ι : Type)
  | accept (i : ι) (fd newSocket fork : ℤ)
  | turn (i : ι) (t : Turn)

section Processes

variable {ι : Type} [DecidableEq ι]

/-- `req` is what the parent has on its stack, which every child starts with. After a `fork` that failed
the connection is nobody's, and the parent keeps its socket in either case. -/
def Processes.step (req : MemRwReq) (s : Processes ι) : Event ι → Option (Processes ι)
  | .accept i fd newSocket fork =>
    if s.parent.status.isSome then none
    else if newSocket < 0 then some { s with parent := { s.parent with status := some 1 } }
    else if fork < 0 then some { s with parent := { s.parent with sockets := s.parent.sockets + 1 } }
    else (interleave connStep s.conn (i, .accepted fd req)).map fun conn =>
      ⟨{ s.parent with sockets := s.parent.sockets + 1 }, conn⟩
  | .turn i t => (interleave connStep s.conn (i, .turn t)).map fun conn => { s with conn := conn }

def connEvents (req : MemRwReq) : Event ι → List (ι × ConnEvent)
  | .accept i fd newSocket fork => if newSocket < 0 ∨ fork < 0 then [] else [(i, .accepted fd req)]
  | .turn i t => [(i, .turn t)]

def acceptedBy : Event ι → ℕ
  | .accept _ _ newSocket _ => if newSocket < 0 then 0 else 1
  | .turn _ _ => 0

theorem step_conn {req : MemRwReq} {s s' : Processes ι} {e : Event ι} (h : s.step req e = some s') :
    Runs.run (interleave connStep) s.conn (connEvents req e) = some s'.conn ∧
      s'.parent.sockets = s.parent.sockets + acceptedBy e := by
  cases e with
  | accept i fd newSocket fork =>
    simp only [Processes.step, connEvents, acceptedBy] at h ⊢
    split_ifs at h with hexit hsock hfork
    · obtain rfl := Option.some.inj h
      rw [if_pos (.inl hsock), if_pos hsock]
      exact ⟨rfl, rfl⟩
    · obtain rfl := Option.some.inj h
      rw [if_pos (.inr hfork), if_neg hsock]
      exact ⟨rfl, rfl⟩
    · obtain ⟨conn, hconn, rfl⟩ := Option.map_eq_some_iff.mp h
      rw [if_neg (by omega), if_neg hsock, run_singleton]
      exact ⟨hconn, rfl⟩
  | turn i t =>
    obtain ⟨conn, hconn, rfl⟩ := Option.map_eq_some_iff.mp h
    exact ⟨(run_singleton _ _).trans hconn, rfl⟩

theorem run_conn {req : MemRwReq} {s s' : Processes ι} (es : List (Event ι))
    (h : Runs.run (Processes.step req) s es = some s') :
    Runs.run (interleave connStep) s.conn (es.flatMap (connEvents req)) = some s'.conn ∧
      s'.parent.sockets = s.parent.sockets + (es.map acceptedBy).sum := by
  induction es generalizing s with
  | nil =>
    obtain rfl := Option.some.inj h
    exact ⟨rfl, rfl⟩
  | cons e es ih =>
    obtain ⟨u, hu, hrun⟩ := Option.bind_eq_some_iff.mp h
    obtain ⟨hstep, hsock⟩ := step_conn hu
    obtain ⟨hrest, hrestSock⟩ := ih hrun
    refine ⟨?_, ?_⟩
    · rw [List.flatMap_cons, run_append, hstep, Option.bind_some, hrest]
    · rw [hrestSock, hsock, List.map_cons, List.sum_cons, Nat.add_assoc]

theorem run_turns {c : Session MemRwReq} {s : Option (Session MemRwReq)} (evs : List ConnEvent)
    (h : Runs.run connStep (some c) evs = some s) : ∃ turns s', s = some s' ∧ evs = turns.map .turn ∧
      Runs.run (Session.step tcpServer) c turns = some s' := by
  induction evs generalizing c with
  | nil => exact ⟨[], c, (Option.some.inj h).symm, rfl, rfl⟩
  | cons e evs ih =>
    obtain ⟨u, hu, hrun⟩ := Option.bind_eq_some_iff.mp h
    cases e with
    | accepted fd req => cases hu
    | turn t =>
      obtain ⟨c', hc', rfl⟩ := Option.map_eq_some_iff.mp hu
      obtain ⟨turns, s', rfl, rfl, hs'⟩ := ih hrun
      exact ⟨t :: turns, s', rfl, rfl, (run_cons _ hc').trans hs'⟩

theorem run_accepted {s : Session MemRwReq} (evs : List ConnEvent) (h : Runs.run connStep none evs = some (some s)) :
    ∃ fd req turns, evs = .accepted fd req :: turns.map .turn ∧
      Runs.run (Session.step tcpServer) (.start fd req) turns = some s := by
  cases evs with
  | nil => cases h
  | cons e evs =>
    obtain ⟨u, hu, hrun⟩ := Option.bind_eq_some_iff.mp h
    cases e with
    | turn t => cases hu
    | accepted fd req =>
      obtain rfl := Option.some.inj hu
      obtain ⟨turns, s', hs, rfl, hs'⟩ := run_turns evs hrun
      obtain rfl := Option.some.inj hs
      exact ⟨fd, req, turns, rfl, hs'⟩

theorem accepted_req {req req' : MemRwReq} {fd : ℤ} {i : ι} {es : List (Event ι)}
    (h : .accepted fd req' ∈ turnsOf i (es.flatMap (connEvents req))) : req' = req := by
  obtain ⟨⟨j, ev⟩, hmem, hi⟩ := List.mem_filterMap.mp h
  obtain ⟨-, rfl⟩ := Option.ite_none_right_eq_some.mp hi |>.imp_right Option.some.inj
  obtain ⟨e, -, he⟩ := List.mem_flatMap.mp hmem
  cases e with
  | accept k fd' newSocket fork =>
    simp only [connEvents] at he
    split_ifs at he
    · cases he
    · cases List.mem_singleton.mp he
      rfl
  | turn k t => cases List.mem_singleton.mp he

def Answered (a : Access) (resp : MemRwReq) : Prop :=
  resp.addr = a.addr ∧ resp.value = a.addr ∧ resp.resp = memRwRespOk

theorem answered_reply {a : Access} {resp : MemRwReq} (h : Answered a resp) :
    (a.reply resp).1 = 0 ∧ ∀ addr, a = .read addr → (a.reply resp).2 = some addr := by
  obtain ⟨haddr, hval, hok⟩ := h
  cases a with
  | read addr =>
    rw [reply_read, if_pos ⟨haddr, hok⟩, hval]
    refine ⟨rfl, ?_⟩
    rintro addr' ⟨⟩
    rfl
  | write addr value =>
    rw [reply_write, if_pos ⟨haddr, hok⟩]
    refine ⟨rfl, ?_⟩
    rintro addr' ⟨⟩

theorem emulators_isolated (req : MemRwReq) (sockfd bind listen : ℤ) (es : List (Event ι)) (s : Processes ι)
    (h : Runs.run (Processes.step req) ⟨tcpServerStart sockfd bind listen, fun _ => none⟩ es = some s) :
    (∀ i c, s.conn i = some c → ∃ fd turns,
      turnsOf i (es.flatMap (connEvents req)) = .accepted fd req :: turns.map .turn ∧
      Runs.run (Session.step tcpServer) (.start fd req) turns = some c ∧
      (0 ≤ fd → InStep tcpServer c ∧
        ∀ e ∈ c.conn.log, e.ret.1 = 0 ∧ ∀ addr, e.access = .read addr → e.ret.2 = some addr)) ∧
    s.parent.sockets = (tcpServerStart sockfd bind listen).sockets + (es.map acceptedBy).sum := by
  obtain ⟨hconn, hsock⟩ := run_conn es h
  refine ⟨?_, hsock⟩
  intro i c hc
  have hrun := run_interleave _ hconn i
  rw [hc] at hrun
  obtain ⟨fd, req', turns, hevs, hturns⟩ := run_accepted _ hrun
  obtain rfl := accepted_req (hevs ▸ List.mem_cons_self : .accepted fd req' ∈ turnsOf i (es.flatMap (connEvents req)))
  refine ⟨fd, turns, hevs, hturns, fun hfd => ?_⟩
  have hsrv (st : MemRwReq) (a : Access) (stack : MemRwReq) : ∃ st' resp,
      tcpServer st (a.request stack) = (st', some resp) ∧ Answered a resp := tcpServer_answers st stack a
  have hkept := run_kept hsrv hfd req' turns hturns
  refine ⟨Kept.inStep hsrv hkept, ?_⟩
  intro e he
  obtain ⟨k, hk⟩ := List.mem_iff_getElem?.mp he
  obtain ⟨resp, -, -, hret, hans⟩ := hkept.log k e hk
  rw [hret]
  exact answered_reply hans

end Processes

theorem emulators_isolated_two :
    let es := [.accept 0 5 4 100, .turn 0 (.call (.read 0x40) zeroed ⟨-1, -1⟩), .accept 1 9 5 101,
      .turn 1 (.call (.write 0x48 7) zeroed ⟨-1, -1⟩), .turn 1 .serve, .turn 0 .serve, .accept 2 6 6 (-1),
      .turn 1 (.receive ⟨-1, -1⟩), .turn 0 (.receive ⟨-1, -1⟩)]
    ∃ s c, Runs.run (Processes.step zeroed) ⟨tcpServerStart 3 0 0, fun _ => none⟩ es = some s ∧
      s.conn 0 = some c ∧ InStep tcpServer c ∧ s.parent.sockets = 4 := by
  intro es
  have hsome : (Runs.run (Processes.step zeroed) ⟨tcpServerStart 3 0 0, fun _ : ℕ => none⟩ es).isSome := by decide
  obtain ⟨s, hs⟩ := Option.isSome_iff_exists.mp hsome
  obtain ⟨hall, hsock⟩ := emulators_isolated zeroed 3 0 0 es s hs
  have hzero : (Runs.run (Processes.step zeroed) ⟨tcpServerStart 3 0 0, fun _ : ℕ => none⟩ es).map
      (fun s => (s.conn 0).isSome) = some true := by decide
  rw [hs] at hzero
  obtain ⟨c, hc⟩ := Option.isSome_iff_exists.mp (Option.some.inj hzero)
  obtain ⟨fd, turns, hevs, -, hin⟩ := hall 0 c hc
  have hfd : fd = 5 := by
    have hhead := congrArg List.head? hevs
    have hfirst : (turnsOf 0 (es.flatMap (connEvents zeroed))).head? = some (.accepted 5 zeroed) := rfl
    rw [hfirst] at hhead
    cases hhead
    rfl
  subst hfd
  exact ⟨s, c, hs, hc, (hin (by decide)).1, hsock⟩

end Pciemu.TcpServer
