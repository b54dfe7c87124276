import KvStore.PosixNetwork.Model
import Mathlib.Data.List.Nodup

set_option autoImplicit false

/-! # One round of the poll loop

The handlers insert into and erase from the vector that the loop of `runPoll` walks through. A
client that has closed its connection is erased: the later elements move down, the next one is
skipped, and the loop reads behind the last one at its end. A new connection is appended: the vector
may get new storage, and the loop goes on in the old one.

`Harmless` says for which contents neither happens, whatever the accepts and reads do
(`poll_round_iff`): at most the last element is ready; or the last one is the listening socket, a
connection waits there, and before it one client is ready, or two that stand next to each other. The
new connection then makes up for the client that is erased, and the second of the two is the one
that is skipped. -/

namespace KvStore.PosixNetwork

open KvStore.Lib

/-! ## One iteration -/

variable {env : Env} {s : Network} {i : Nat} {p : PollFd}

theorem run_pollBody_dangling {storage : Nat} (h : s.storage ≠ storage) :
    (pollBody env storage i).run s = .error .dangling := by
  simp [pollBody, h]
  rfl

theorem run_pollBody_none (h : s.pollFds[i]? = none) :
    (pollBody env s.storage i).run s = .error .outOfBounds := by
  simp [pollBody, h]
  rfl

theorem run_pollBody_idle (hp : s.pollFds[i]? = some p) (hready : p.ready = false) :
    (pollBody env s.storage i).run s = .ok (none, s) := by
  simp [pollBody, hp, hready]
  rfl

/-- The client has sent something. -/
theorem run_pollBody_received (hp : s.pollFds[i]? = some p) (hready : p.ready)
    (hfd : p.fd ≠ s.listenFd) (hread : 0 < env.read s.handled.length p.fd) :
    (pollBody env s.storage i).run s = .ok (none, { s with handled := s.handled ++ [p.fd] }) := by
  simp [pollBody, hp, hready, hfd, handleClientData, Int.not_le.mpr hread]
  rfl

/-- The client has closed the connection. -/
theorem run_pollBody_closed (hp : s.pollFds[i]? = some p) (hready : p.ready)
    (hfd : p.fd ≠ s.listenFd) (hread : env.read s.handled.length p.fd ≤ 0) :
    (pollBody env s.storage i).run s = .ok (none, { s with
      handled := s.handled ++ [p.fd]
      pollFds := s.pollFds.filter fun pfd => pfd.fd ≠ p.fd }) := by
  simp [pollBody, hp, hready, hfd, handleClientData, hread]
  rfl

theorem run_pollBody_connected {fd : Int} {spare : Nat} (hp : s.pollFds[i]? = some p)
    (hready : p.ready) (hfd : p.fd = s.listenFd)
    (haccept : env.accept s.accepts = .connected fd true spare) :
    (pollBody env s.storage i).run s =
      .ok (none, { s with accepts := s.accepts + 1 }.pushBack ⟨fd, pollin, 0⟩ spare) := by
  simp [pollBody, hp, hready, hfd, handleNewConnection, haccept]
  rfl

/-- A connection that has been appended is not ready in this round. -/
theorem ready_new (fd : Int) : PollFd.ready ⟨fd, pollin, 0⟩ = false := by simp [PollFd.ready]

theorem Network.pushBack_of_lt {spare : Nat} (h : s.pollFds.length < s.capacity) :
    s.pushBack p spare = { s with pollFds := s.pollFds ++ [p] } := if_neg h.ne

theorem Network.storage_pushBack_full {spare : Nat} (h : s.pollFds.length = s.capacity) :
    (s.pushBack p spare).storage = s.storage + 1 := by
  rw [Network.pushBack, if_pos h]

/-- The listening socket is ready: an exception ends the round, or the connection is appended. -/
theorem ok_pollBody_listen {Q : Option Unit → Network → Prop} (hp : s.pollFds[i]? = some p)
    (hready : p.ready) (hfd : p.fd = s.listenFd)
    (hthrow : Q (some ()) { s with accepts := s.accepts + 1 }) (hpush : ∀ fd spare,
      Q none ({ s with accepts := s.accepts + 1 }.pushBack ⟨fd, pollin, 0⟩ spare)) :
    Ok (pollBody env s.storage i) s Q := by
  cases haccept : env.accept s.accepts with
  | failed => simpa [pollBody, hp, hready, hfd, handleNewConnection, haccept] using hthrow
  | connected fd nonBlocking spare =>
      cases nonBlocking with
      | false => simpa [pollBody, hp, hready, hfd, handleNewConnection, haccept] using hthrow
      | true => exact ⟨_, _, run_pollBody_connected hp hready hfd haccept, hpush fd spare⟩

/-! ## Harmless contents -/

/-- The element is the listening socket, and a connection waits. -/
def PollFd.accepts (listenFd : Int) (p : PollFd) : Bool := p.ready && p.fd = listenFd

theorem PollFd.accepts_iff {listenFd : Int} : p.accepts listenFd ↔ p.ready ∧ p.fd = listenFd := by
  rw [PollFd.accepts, Bool.and_eq_true, decide_eq_true_iff]

/-- What is asked of a ready element `p` at the place `i`, before the last one. -/
structure MayClose (listenFd : Int) (L : List PollFd) (i : Nat) (p : PollFd) : Prop where
  /-- The last element is the listening socket, and a connection waits. -/
  listens : ∃ last ∈ L.getLast?, last.accepts listenFd
  client : p.fd ≠ listenFd
  once : (L.map PollFd.fd).count p.fd = 1
  /-- It does not stand directly before the last element. -/
  room : i + 2 < L.length
  /-- At most the next element is ready too. -/
  next : ∀ j < L.length - 1, ∀ q ∈ L[j]?, q.ready → i < j → j = i + 1

/-- The contents of `poll_fds` for which a round goes well. -/
def Harmless (listenFd : Int) (L : List PollFd) : Prop :=
  ∀ i < L.length - 1, ∀ p ∈ L[i]?, p.ready → MayClose listenFd L i p

instance (listenFd : Int) (L : List PollFd) (i : Nat) (p : PollFd) :
    Decidable (MayClose listenFd L i p) :=
  decidable_of_iff
    ((∃ last ∈ L.getLast?, last.accepts listenFd) ∧ p.fd ≠ listenFd ∧
      (L.map PollFd.fd).count p.fd = 1 ∧
      i + 2 < L.length ∧ ∀ j < L.length - 1, ∀ q ∈ L[j]?, q.ready → i < j → j = i + 1)
    ⟨fun ⟨h₁, h₂, h₃, h₄, h₅⟩ => ⟨h₁, h₂, h₃, h₄, h₅⟩,
      fun ⟨h₁, h₂, h₃, h₄, h₅⟩ => ⟨h₁, h₂, h₃, h₄, h₅⟩⟩

instance (listenFd : Int) (L : List PollFd) : Decidable (Harmless listenFd L) :=
  inferInstanceAs (Decidable (∀ i < L.length - 1, ∀ p ∈ L[i]?, p.ready → MayClose listenFd L i p))

/-! ## The elements that `erase` takes away -/

variable {D : List Int} {listenFd : Int} {L V : List PollFd} {capacity : Nat} {handled : List Int}
  {j : Nat} {q : PollFd}

theorem length_filter_fd (L : List PollFd) (fd : Int) :
    (L.filter fun q => q.fd ≠ fd).length + (L.map PollFd.fd).count fd = L.length := by
  rw [List.count, List.countP_map, ← List.countP_eq_length_filter,
    L.length_eq_countP_add_countP fun q => decide (q.fd ≠ fd)]
  congr 1
  apply List.countP_congr
  intro q _
  simp

theorem length_filter_lt (hp : p ∈ L) : (L.filter fun q => q.fd ≠ p.fd).length < L.length :=
  List.length_filter_lt_length_iff_exists.mpr ⟨p, hp, by simp⟩

theorem length_filter_two (hp : p ∈ L) (hq : q ∈ L) (hne : q.fd ≠ p.fd) :
    ((L.filter fun r => r.fd ≠ p.fd).filter fun r => r.fd ≠ q.fd).length + 2 ≤ L.length := by
  have hmem : q ∈ L.filter fun r => r.fd ≠ p.fd := List.mem_filter.mpr ⟨hq, decide_eq_true hne⟩
  have hfirst := length_filter_lt hp
  have hsecond := length_filter_lt hmem
  omega

/-- Around an element whose descriptor occurs once, there are others. -/
theorem ne_of_count_one (hone : (L.map PollFd.fd).count p.fd = 1) (hp : L[i]? = some p) :
    L = L.take i ++ p :: L.drop (i + 1) ∧ (∀ q ∈ L.take i, q.fd ≠ p.fd) ∧
      ∀ q ∈ L.drop (i + 1), q.fd ≠ p.fd := by
  obtain ⟨hi, hget⟩ := List.getElem?_eq_some_iff.mp hp
  have hsplit : L = L.take i ++ p :: L.drop (i + 1) := by
    rw [← hget, ← List.drop_eq_getElem_cons hi, List.take_append_drop]
  have hcount := hone
  rw [hsplit, List.map_append, List.count_append, List.map_cons, List.count_cons_self] at hcount
  have hzero : ∀ M : List PollFd, (M.map PollFd.fd).count p.fd = 0 → ∀ q ∈ M, q.fd ≠ p.fd := by
    intro M hM q hq hfd
    exact List.count_eq_zero.mp hM (hfd ▸ List.mem_map_of_mem hq)
  exact ⟨hsplit, hzero _ (by omega), hzero _ (by omega)⟩

/-- A descriptor that occurs once has one place. -/
theorem eq_of_count_one (hone : (L.map PollFd.fd).count p.fd = 1)
    (hp : L[i]? = some p) (hq : L[j]? = some q) (hfd : q.fd = p.fd) : j = i := by
  obtain ⟨-, hbefore, hafter⟩ := ne_of_count_one hone hp
  rcases lt_trichotomy j i with hlt | heq | hgt
  · have hmem : q ∈ L.take i := List.mem_of_getElem? (by rwa [List.getElem?_take_of_lt hlt])
    exact absurd hfd (hbefore q hmem)
  · exact heq
  · have hmem : q ∈ L.drop (i + 1) := by
      apply List.mem_of_getElem? (i := j - (i + 1))
      rwa [List.getElem?_drop, Nat.add_sub_cancel' hgt]
    exact absurd hfd (hafter q hmem)

/-- Then `erase` takes away the element with this place. -/
theorem filter_eq_eraseIdx (hone : (L.map PollFd.fd).count p.fd = 1) (hp : L[i]? = some p) :
    (L.filter fun q => q.fd ≠ p.fd) = L.eraseIdx i := by
  obtain ⟨hsplit, hbefore, hafter⟩ := ne_of_count_one hone hp
  rw [List.eraseIdx_eq_take_drop_succ]
  conv_lhs => rw [hsplit]
  rw [List.filter_append, List.filter_cons_of_neg (by simp), List.filter_eq_self.mpr,
    List.filter_eq_self.mpr]
  · exact fun q hq => decide_eq_true (hafter q hq)
  · exact fun q hq => decide_eq_true (hbefore q hq)

/-! ## Rounds that go wrong -/

/-- A round in which no connection has been accepted yet. -/
def inRound (listenFd : Int) (V : List PollFd) (capacity : Nat) (handled : List Int) : Network where
  listenFd := listenFd
  pollFds := V
  capacity := capacity
  storage := 0
  accepts := 0
  handled := handled

/-- Every connection is accepted, and the clients `D`, and only they, have closed their
connections. -/
def closing (D : List Int) : Env where
  accept _ := .connected 0 true 0
  read _ fd := if fd ∈ D then 0 else 1

/-- An iteration for this element keeps `poll_fds` as it is. -/
def Quiet (D : List Int) (listenFd : Int) (p : PollFd) : Prop :=
  p.ready → p.fd ≠ listenFd ∧ p.fd ∉ D

theorem Quiet.run_pollBody (hp : s.pollFds[i]? = some p) (h : Quiet D s.listenFd p) :
    ∃ handled',
      (pollBody (closing D) s.storage i).run s = .ok (none, { s with handled := handled' }) := by
  cases hready : p.ready with
  | false => exact ⟨s.handled, run_pollBody_idle hp hready⟩
  | true =>
      obtain ⟨hfd, hD⟩ := h hready
      have hread : 0 < (closing D).read s.handled.length p.fd := by simp [closing, hD]
      exact ⟨_, run_pollBody_received hp hready hfd hread⟩

/-- The iterations over such elements. -/
theorem run_forLoop_quiet {k m a : Nat}
    (h : ∀ j, a ≤ j → j < a + k → ∃ p, V[j]? = some p ∧ Quiet D listenFd p) :
    ∃ handled',
      (forLoop (pollBody (closing D) 0) (k + m) a).run (inRound listenFd V capacity handled) =
      (forLoop (pollBody (closing D) 0) m (a + k)).run (inRound listenFd V capacity handled') := by
  induction k generalizing a handled with
  | zero => exact ⟨handled, by rw [Nat.zero_add, Nat.add_zero]⟩
  | succ k ih =>
      obtain ⟨p, hp, hquiet⟩ := h a le_rfl (by omega)
      obtain ⟨handled₁, hbody⟩ :=
        hquiet.run_pollBody (s := inRound listenFd V capacity handled) hp
      obtain ⟨handled₂, hloop⟩ := ih (a := a + 1) fun j hj hj' => h j (by omega) (by omega)
      refine ⟨handled₂, ?_⟩
      rw [Nat.add_right_comm, forLoop_succ]
      refine (run_bind_ok hbody).trans (hloop.trans ?_)
      rw [Nat.add_assoc, Nat.add_comm 1]

/-- Such iterations, up to a client that has closed its connection. -/
theorem run_forLoop_closed {k m a : Nat}
    (h : ∀ j, a ≤ j → j < a + k → ∃ p, V[j]? = some p ∧ Quiet D listenFd p)
    (hp : V[a + k]? = some p) (hready : p.ready) (hfd : p.fd ≠ listenFd) (hD : p.fd ∈ D) :
    ∃ handled', (forLoop (pollBody (closing D) 0) (k + (m + 1)) a).run
        (inRound listenFd V capacity handled) =
      (forLoop (pollBody (closing D) 0) m (a + k + 1)).run
        (inRound listenFd (V.filter fun q => q.fd ≠ p.fd) capacity handled') := by
  obtain ⟨handled₁, hloop⟩ := run_forLoop_quiet (m := m + 1) h
  have hread : (closing D).read handled₁.length p.fd ≤ 0 := by simp [closing, hD]
  have hbody := run_pollBody_closed (s := inRound listenFd V capacity handled₁) hp hready hfd hread
  refine ⟨handled₁ ++ [p.fd], ?_⟩
  rw [hloop, forLoop_succ]
  exact run_bind_ok hbody

/-- A connection that is appended is not accepted from. -/
theorem countP_accepts_append_new {a : Nat} {fd : Int} (ha : a < V.length) :
    ((V ++ [PollFd.mk fd pollin 0]).drop (a + 1)).countP (PollFd.accepts listenFd) =
      (V.drop (a + 1)).countP (PollFd.accepts listenFd) := by
  have hnew : PollFd.accepts listenFd ⟨fd, pollin, 0⟩ = false := by
    rw [PollFd.accepts, ready_new, Bool.false_and]
  rw [List.drop_append_of_le_length ha, List.countP_append, List.countP_singleton, hnew,
    if_neg Bool.false_ne_true, Nat.add_zero]

/-- **A round that has lost elements runs out of them.** There are fewer elements than the round has
iterations, and the connections that are still accepted do not make up for it. -/
theorem forLoop_short {m a : Nat} (hpos : 0 < m)
    (hshort : s.pollFds.length + (s.pollFds.drop a).countP (PollFd.accepts s.listenFd) < a + m)
    (hcapacity : a + m ≤ s.capacity)
    (hopen : ∀ p ∈ s.pollFds, p.ready → p.fd ≠ s.listenFd → p.fd ∉ D) :
    ∃ e, (forLoop (pollBody (closing D) s.storage) m a).run s = .error e := by
  induction m generalizing a s with
  | zero => omega
  | succ m ih =>
      rw [forLoop_succ]
      cases hp : s.pollFds[a]? with
      | none => exact ⟨_, run_bind_error (run_pollBody_none hp)⟩
      | some p =>
          obtain ⟨ha, hget⟩ := List.getElem?_eq_some_iff.mp hp
          rw [List.drop_eq_getElem_cons ha, hget, List.countP_cons] at hshort
          by_cases haccepts : p.accepts s.listenFd
          · -- the connection is appended, within the capacity
            obtain ⟨hready, hfd⟩ := PollFd.accepts_iff.mp haccepts
            have haccept : (closing D).accept s.accepts = .connected 0 true 0 := rfl
            have hroom : s.pollFds.length < s.capacity := by omega
            rw [run_bind_ok (run_pollBody_connected hp hready hfd haccept),
              Network.pushBack_of_lt (s := { s with accepts := s.accepts + 1 }) hroom]
            rw [if_pos haccepts] at hshort
            refine ih
              (s := { s with accepts := s.accepts + 1, pollFds := s.pollFds ++ [⟨0, pollin, 0⟩] })
              (by omega) ?_ (by simpa using by omega) ?_
            · simp only [countP_accepts_append_new ha, List.length_append, List.length_singleton]
              omega
            · intro q hq hqready
              rcases List.mem_append.mp hq with hold | hnew
              · exact hopen q hold hqready
              · rw [List.mem_singleton.mp hnew, ready_new] at hqready
                cases hqready
          · have hquiet : Quiet D s.listenFd p := by
              intro hready
              have hfd : p.fd ≠ s.listenFd :=
                fun hfd => haccepts (PollFd.accepts_iff.mpr ⟨hready, hfd⟩)
              exact ⟨hfd, hopen p (List.mem_of_getElem? hp) hready hfd⟩
            obtain ⟨handled, hbody⟩ := hquiet.run_pollBody hp
            rw [run_bind_ok hbody]
            refine ih (s := { s with handled := handled }) (by omega) ?_
              (by simpa using by omega) hopen
            simp only
            omega

/-- The listening socket may be ready only as the last element. -/
def ClientsFirst (listenFd : Int) (L : List PollFd) : Prop :=
  ∀ j q, L[j]? = some q → q.ready → j + 1 < L.length → q.fd ≠ listenFd

/-- The first ready element with a descriptor. -/
theorem exists_first (hp : L[i]? = some p) (hready : p.ready) :
    ∃ a ≤ i, ∃ q, L[a]? = some q ∧ q.ready ∧ q.fd = p.fd ∧
      ∀ j < a, ∀ q', L[j]? = some q' → q'.ready → q'.fd ≠ p.fd := by
  classical
  have hex : ∃ a, ∃ q : PollFd, L[a]? = some q ∧ q.ready ∧ q.fd = p.fd := ⟨i, p, hp, hready, rfl⟩
  obtain ⟨q, hq, hqready, hqfd⟩ := Nat.find_spec hex
  refine ⟨Nat.find hex, Nat.find_min' hex ⟨p, hp, hready, rfl⟩, q, hq, hqready, hqfd, ?_⟩
  intro j hj q' hq' hready' hfd'
  exact Nat.find_min hex hj ⟨q', hq', hready', hfd'⟩

/-- A connection is accepted before the last element, and the vector is full: the next element is
read from the storage that `push_back` has given back. -/
theorem runPoll_reallocated (hp : L[i]? = some p) (hready : p.ready) (hfd : p.fd = listenFd)
    (hi : i + 1 < L.length) :
    ∃ e, (runPoll (closing [])).run (inRound listenFd L L.length []) = .error e := by
  obtain ⟨a, hai, q, hq, hqready, hqfd, hfirst⟩ := exists_first hp hready
  obtain ⟨m, hm⟩ : ∃ m, L.length = a + (m + 1 + 1) := ⟨L.length - a - 2, by omega⟩
  have hquiet : ∀ j, 0 ≤ j → j < 0 + a → ∃ r, L[j]? = some r ∧ Quiet [] listenFd r := by
    intro j _ hj
    have hr : L[j]? = some L[j] := List.getElem?_eq_getElem (by omega)
    refine ⟨L[j], hr, fun hrready => ⟨?_, List.not_mem_nil⟩⟩
    exact hfd ▸ hfirst j (by omega) L[j] hr hrready
  obtain ⟨handled, hloop⟩ := run_forLoop_quiet (m := m + 1 + 1) hquiet
  rw [Nat.zero_add, ← hm] at hloop
  have hrun : (runPoll (closing [])).run (inRound listenFd L L.length []) = _ := hloop
  have hbody := run_pollBody_connected (s := inRound listenFd L L.length handled) hq hqready
    (hqfd.trans hfd) (show (closing []).accept 0 = .connected 0 true 0 from rfl)
  refine ⟨.dangling, ?_⟩
  rw [hrun, forLoop_succ]
  refine (run_bind_ok hbody).trans (run_bind_error (run_pollBody_dangling ?_))
  rw [Network.storage_pushBack_full rfl]
  exact Nat.succ_ne_zero 0

/-- A client closes its connection, and the elements that are left are too few. -/
theorem runPoll_short (hp : L[i]? = some p) (hready : p.ready) (hi : i + 1 < L.length)
    (hfirst : ∀ j < i, ∀ q, L[j]? = some q → q.ready → q.fd ≠ p.fd)
    (hclients : ClientsFirst listenFd L) (hshort : (L.filter fun q => q.fd ≠ p.fd).length +
      ((L.filter fun q => q.fd ≠ p.fd).drop (i + 1)).countP (PollFd.accepts listenFd) < L.length) :
    ∃ e, (runPoll (closing [p.fd])).run (inRound listenFd L L.length []) = .error e := by
  obtain ⟨m, hm⟩ : ∃ m, L.length = i + (m + 1) := ⟨L.length - i - 1, by omega⟩
  have hquiet : ∀ j, 0 ≤ j → j < 0 + i → ∃ r, L[j]? = some r ∧ Quiet [p.fd] listenFd r := by
    intro j _ hj
    have hr : L[j]? = some L[j] := List.getElem?_eq_getElem (by omega)
    refine ⟨L[j], hr, fun hrready => ⟨hclients j L[j] hr hrready (by omega), ?_⟩⟩
    exact List.mem_singleton.not.mpr (hfirst j (by omega) L[j] hr hrready)
  have hp₀ : L[0 + i]? = some p := by rwa [Nat.zero_add]
  obtain ⟨handled, hloop⟩ := run_forLoop_closed (m := m) hquiet hp₀ hready
    (hclients i p hp hready hi) (List.mem_singleton_self p.fd)
  rw [Nat.zero_add, ← hm] at hloop
  have hrun : (runPoll (closing [p.fd])).run (inRound listenFd L L.length []) = _ := hloop
  have hpos : 0 < m := by omega
  have hlength : i + 1 + m = L.length := by omega
  rw [hrun]
  refine forLoop_short (s := inRound ..) hpos (hshort.trans_eq hlength.symm) hlength.le ?_
  intro q hq _ _
  have hne := List.of_mem_filter hq
  exact List.mem_singleton.not.mpr (of_decide_eq_true hne)

/-- Only the last element can be the listening socket with a waiting connection. -/
theorem countP_accepts (hclients : ClientsFirst listenFd L) :
    L.countP (PollFd.accepts listenFd) = L.getLast?.toList.countP (PollFd.accepts listenFd) := by
  rcases List.eq_nil_or_concat' L with rfl | ⟨M, last, rfl⟩
  · rfl
  · have hM : M.countP (PollFd.accepts listenFd) = 0 := by
      apply List.countP_eq_zero.mpr
      intro q hq haccepts
      obtain ⟨hready, hfd⟩ := PollFd.accepts_iff.mp haccepts
      obtain ⟨j, hj, hget⟩ := List.getElem_of_mem hq
      refine hclients j q ?_ hready (by simpa using hj) hfd
      rw [List.getElem?_append_left hj, List.getElem?_eq_getElem hj, hget]
    rw [List.countP_append, hM, Nat.zero_add, List.getLast?_concat]
    rfl

/-- Two elements are lost, and at most one connection is accepted. -/
theorem short_of_two_lost (a : Nat) (hclients : ClientsFirst listenFd L)
    (hsub : V.Sublist L) (hlost : V.length + 2 ≤ L.length) :
    V.length + (V.drop a).countP (PollFd.accepts listenFd) < L.length := by
  have hcount : (V.drop a).countP (PollFd.accepts listenFd) ≤ 1 :=
    calc (V.drop a).countP (PollFd.accepts listenFd)
        ≤ L.countP (PollFd.accepts listenFd) := ((V.drop_sublist a).trans hsub).countP_le
      _ = L.getLast?.toList.countP (PollFd.accepts listenFd) := countP_accepts hclients
      _ ≤ L.getLast?.toList.length := List.countP_le_length
      _ ≤ 1 := Option.length_toList_le
  omega

/-- Two clients that are not next to each other close their connections. The second one is found one
place further down, and two elements are lost, of which a new connection makes up for one. -/
theorem runPoll_short_two (hp : L[i]? = some p) (hready : p.ready)
    (hq : L[j]? = some q) (hqready : q.ready) (hij : i + 1 < j) (hj : j + 1 < L.length)
    (hclients : ClientsFirst listenFd L)
    (hpone : (L.map PollFd.fd).count p.fd = 1) (hqone : (L.map PollFd.fd).count q.fd = 1) :
    ∃ e, (runPoll (closing [p.fd, q.fd])).run (inRound listenFd L L.length []) = .error e := by
  have hquiet : ∀ k, k < j → k ≠ i → ∃ r, L[k]? = some r ∧ Quiet [p.fd, q.fd] listenFd r := by
    intro k hk hki
    have hr : L[k]? = some L[k] := List.getElem?_eq_getElem (by omega)
    refine ⟨L[k], hr, fun hrready => ⟨hclients k _ hr hrready (by omega), ?_⟩⟩
    intro hmem
    rcases List.mem_cons.mp hmem with heq | hmem
    · exact hki (eq_of_count_one hpone hp hr heq)
    · have := eq_of_count_one hqone hq hr (List.mem_singleton.mp hmem)
      omega
  have herase : (L.filter fun r => r.fd ≠ p.fd) = L.eraseIdx i := filter_eq_eraseIdx hpone hp
  obtain ⟨k, hk⟩ : ∃ k, j = i + 1 + k + 1 := ⟨j - i - 2, by omega⟩
  obtain ⟨m, hm⟩ : ∃ m, L.length = i + (k + (m + 1) + 1) := ⟨L.length - j, by omega⟩
  have hp₀ : L[0 + i]? = some p := by rwa [Nat.zero_add]
  obtain ⟨handled₁, hfirst⟩ := run_forLoop_closed (m := k + (m + 1)) (a := 0)
    (fun k' _ hk' => hquiet k' (by omega) (by omega)) hp₀ hready (hclients i p hp hready (by omega))
    List.mem_cons_self
  have hquiet' : ∀ k', i + 1 ≤ k' → k' < i + 1 + k → ∃ r,
    (L.filter fun r => r.fd ≠ p.fd)[k']? = some r ∧
      Quiet [p.fd, q.fd] listenFd r := by
    intro k' hk₁ hk₂
    rw [herase, List.getElem?_eraseIdx_of_ge (by omega)]
    exact hquiet (k' + 1) (by omega) (by omega)
  have hq' : (L.filter fun r => r.fd ≠ p.fd)[i + 1 + k]? = some q := by
    rw [herase, List.getElem?_eraseIdx_of_ge (by omega), ← hk, hq]
  obtain ⟨handled₂, hsecond⟩ := run_forLoop_closed (m := m) hquiet' hq' hqready
    (hclients j q hq hqready hj) (List.mem_cons_of_mem _ List.mem_cons_self)
  rw [Nat.zero_add, ← hm] at hfirst
  have hrun : (runPoll (closing [p.fd, q.fd])).run (inRound listenFd L L.length []) = _ :=
    hfirst.trans hsecond
  have hpos : 0 < m := by omega
  have hlength : i + 1 + k + 1 + m = L.length := by omega
  rw [hrun]
  refine forLoop_short (s := inRound ..) hpos ?_ hlength.le ?_
  · have hne : q.fd ≠ p.fd := by
      intro heq
      have := eq_of_count_one hpone hp hq heq
      omega
    refine (short_of_two_lost _ hclients ?_ ?_).trans_eq hlength.symm
    · exact List.filter_sublist.trans List.filter_sublist
    · exact length_filter_two (List.mem_of_getElem? hp) (List.mem_of_getElem? hq) hne
  · intro r hr _ _ hmem
    obtain ⟨hr, hrq⟩ := List.mem_filter.mp hr
    rcases List.mem_cons.mp hmem with heq | hmem
    · have hrp := (List.mem_filter.mp hr).2
      exact of_decide_eq_true hrp heq
    · exact of_decide_eq_true hrq (List.mem_singleton.mp hmem)

/-- **Only harmless contents go well.** -/
theorem harmless_of_ok
    (hok : ∀ env, Ok (runPoll env) (inRound listenFd L L.length []) fun _ _ => True) :
    Harmless listenFd L := by
  have hno : ∀ D, ¬∃ e, (runPoll (closing D)).run (inRound listenFd L L.length []) = .error e := by
    rintro D ⟨e, herror⟩
    obtain ⟨_, _, hrun, -⟩ := hok (closing D)
    rw [herror] at hrun
    cases hrun
  have hclients : ClientsFirst listenFd L :=
    fun j q hq hready hj hfd => hno [] (runPoll_reallocated hq hready hfd hj)
  have hones : ∀ j q, L[j]? = some q → q.ready → j + 1 < L.length →
      (L.map PollFd.fd).count q.fd = 1 := by
    intro j q hq hready hj
    by_contra hne
    have hpos : 0 < (L.map PollFd.fd).count q.fd :=
      List.count_pos_iff.mpr (List.mem_map_of_mem (List.mem_of_getElem? hq))
    obtain ⟨a, haj, r, hr, hrready, hrfd, hfirst⟩ := exists_first hq hready
    rw [← hrfd] at hpos hne hfirst
    have hlength := length_filter_fd L r.fd
    apply hno [r.fd]
    apply runPoll_short hr hrready (by omega) hfirst hclients
    exact short_of_two_lost _ hclients List.filter_sublist (by omega)
  intro i hi p hp hready
  have hi' : i + 1 < L.length := by omega
  have hone := hones i p hp hready hi'
  have hlength := length_filter_fd L p.fd
  have hfirst : ∀ j < i, ∀ q, L[j]? = some q → q.ready → q.fd ≠ p.fd :=
    fun j hj q hq _ hfd => hj.ne (eq_of_count_one hone hp hq hfd)
  constructor
  case listens =>
      by_contra hlast
      have hzero : L.countP (PollFd.accepts listenFd) = 0 := by
        rw [countP_accepts hclients]
        exact List.countP_eq_zero.mpr
          fun q hq haccepts => hlast ⟨q, Option.mem_toList.mp hq, haccepts⟩
      have hcount := ((List.drop_sublist (i + 1) _).trans
        (List.filter_sublist (p := fun q : PollFd => q.fd ≠ p.fd) (l := L))).countP_le
          (p := PollFd.accepts listenFd)
      apply hno [p.fd]
      apply runPoll_short hp hready hi' hfirst hclients
      omega
  case client => exact hclients i p hp hready hi'
  case once => exact hone
  case room =>
      by_contra hroom
      apply hno [p.fd]
      apply runPoll_short hp hready hi' hfirst hclients
      rw [List.drop_of_length_le (by omega), List.countP_nil]
      omega
  case next =>
      intro j hj q hq hqready hij
      by_contra hne
      exact hno [p.fd, q.fd]
        (runPoll_short_two hp hready hq hqready (by omega) (by omega) hclients hone
        (hones j q hq hqready (by omega)))

/-! ## Rounds that go well -/

/-- The descriptors of the ready elements before the place `j`. -/
def readyFds (L : List PollFd) (j : Nat) : List Int :=
  ((L.take j).filter PollFd.ready).map PollFd.fd

theorem readyFds_succ (hp : L[j]? = some p) :
    readyFds L (j + 1) = readyFds L j ++ if p.ready then [p.fd] else [] := by
  rw [readyFds, List.take_add_one, hp, List.filter_append, List.map_append]
  cases hready : p.ready <;> simp [readyFds, hready]

/-- What holds before the iteration `j` of a round over harmless contents. -/
inductive Stage (listenFd : Int) (L : List PollFd) (j : Nat) (s : Network) : Prop where
  /-- No client has closed its connection. -/
  | intact (hlisten : s.listenFd = listenFd) (hj : j ≤ L.length - 1) (hfds : s.pollFds = L)
      (hstorage : s.storage = 0) (hcapacity : L.length ≤ s.capacity)
      (hhandled : s.handled = readyFds L j)
  /-- The client at the place `i` has. -/
  | closed (i : Nat) (p : PollFd) (hp : L[i]? = some p) (hready : p.ready) (hij : i < j)
      (hlisten : s.listenFd = listenFd) (hj : j + 1 < L.length) (hfds : s.pollFds = L.eraseIdx i)
      (hstorage : s.storage = 0) (hcapacity : L.length ≤ s.capacity) (hhandled : s.handled.Nodup)
  /-- No element is left to handle. -/
  | idle (hstorage : j < L.length → s.storage = 0)
      (hidle : ∀ k, j ≤ k → k < L.length → ∃ p, s.pollFds[k]? = some p ∧ p.ready = false)
      (hhandled : s.handled.Nodup)

/-- The iteration goes on to the next stage. -/
theorem Stage.ok_of_run {c : Net (Option Unit)} {s' : Network}
    (hrun : c.run s = .ok (none, s')) (h : Stage listenFd L j s') :
    Ok c s fun r s' => (r = none → Stage listenFd L j s') ∧ (r ≠ none → s'.handled.Nodup) :=
  ⟨none, s', hrun, fun _ => h, fun hne => absurd rfl hne⟩

/-- The round is over. -/
theorem Stage.of_length_le (hj : L.length ≤ j) (hhandled : s.handled.Nodup) :
    Stage listenFd L j s :=
  .idle (fun hlt => absurd hlt (by omega)) (fun k hjk hk => absurd hk (by omega)) hhandled

theorem Harmless.of_mem_take (hL : Harmless listenFd L) (hj : j ≤ L.length - 1)
    (hp : p ∈ L.take j) (hready : p.ready) : ∃ i, MayClose listenFd L i p := by
  obtain ⟨i, hi, hget⟩ := List.mem_take_iff_getElem.mp hp
  exact ⟨i, hL i (by omega) p (List.getElem?_eq_some_iff.mpr ⟨by omega, hget⟩) hready⟩

/-- The descriptors that have been handled are distinct. -/
theorem Harmless.nodup (hL : Harmless listenFd L) (hj : j ≤ L.length - 1) :
    (readyFds L j).Nodup := by
  apply List.nodup_iff_count_le_one.mpr
  intro fd
  by_cases hmem : fd ∈ readyFds L j
  · obtain ⟨p, hp, rfl⟩ := List.mem_map.mp hmem
    obtain ⟨hp, hready⟩ := List.mem_filter.mp hp
    obtain ⟨i, hclose⟩ := hL.of_mem_take hj hp hready
    have hsub : (readyFds L j).Sublist (L.map PollFd.fd) :=
      (List.filter_sublist.trans (L.take_sublist j)).map PollFd.fd
    exact (hsub.count_le p.fd).trans_eq hclose.once
  · exact (List.count_eq_zero.mpr hmem).trans_le zero_le_one

/-- The last element is the listening socket if another one is ready. -/
theorem MayClose.last_accepts (h : MayClose listenFd L i p)
    (hq : L[j]? = some q) (hj : j + 1 = L.length) : q.ready ∧ q.fd = listenFd := by
  obtain ⟨last, hlast, haccepts⟩ := h.listens
  rw [Option.mem_def, List.getLast?_eq_getElem?, ← hj, Nat.add_sub_cancel, hq] at hlast
  cases hlast
  exact PollFd.accepts_iff.mp haccepts

theorem Network.handled_pushBack (spare : Nat) : (s.pushBack p spare).handled = s.handled := by
  unfold Network.pushBack
  split <;> rfl

/-- A client closed its connection before. -/
theorem Harmless.step_closed (hL : Harmless listenFd L) (hq : L[i]? = some q)
    (hqready : q.ready) (hij : i < j) (hlisten : s.listenFd = listenFd) (hj : j + 1 < L.length)
    (hfds : s.pollFds = L.eraseIdx i) (hstorage : s.storage = 0) (hcapacity : L.length ≤ s.capacity)
    (hhandled : s.handled.Nodup) :
    Ok (pollBody env s.storage j) s fun r s' =>
      (r = none → Stage listenFd L (j + 1) s') ∧ (r ≠ none → s'.handled.Nodup) := by
  have hclose := hL i (by omega) q hq hqready
  have hp : s.pollFds[j]? = some L[j + 1] := by
    rw [hfds, List.getElem?_eraseIdx_of_ge hij.le, List.getElem?_eq_getElem hj]
  by_cases hlast : j + 2 < L.length
  · -- the next element would have to stand directly behind the client
    have hready : L[j + 1].ready = false := by
      by_contra hready
      have := hclose.next (j + 1) (by omega) L[j + 1] (List.getElem?_eq_getElem hj)
        (Bool.not_eq_false _ ▸ hready) (by omega)
      omega
    exact Stage.ok_of_run (run_pollBody_idle hp hready)
      (.closed i q hq hqready (by omega) hlisten hlast hfds hstorage hcapacity hhandled)
  · -- the listening socket
    obtain ⟨hready, hfd⟩ := hclose.last_accepts (List.getElem?_eq_getElem hj) (by omega)
    refine ok_pollBody_listen hp hready (hfd.trans hlisten.symm)
      ⟨nofun, fun _ => hhandled⟩ fun fd spare => ⟨fun _ => ?_, fun hne => absurd rfl hne⟩
    have hlength : s.pollFds.length = j + 1 := by
      rw [hfds, List.length_eraseIdx_of_lt (by omega)]
      omega
    rw [Network.pushBack_of_lt (s := { s with accepts := s.accepts + 1 })
      (show s.pollFds.length < s.capacity by omega)]
    refine .idle (fun _ => hstorage) ?_ hhandled
    intro k hjk hk
    obtain rfl : k = s.pollFds.length := by omega
    exact ⟨⟨fd, pollin, 0⟩, List.getElem?_concat_length, ready_new fd⟩

/-- All clients have kept their connections. -/
theorem Harmless.step_intact (hL : Harmless listenFd L) (hlisten : s.listenFd = listenFd)
    (hj : j + 1 < L.length) (hfds : s.pollFds = L) (hstorage : s.storage = 0)
    (hcapacity : L.length ≤ s.capacity) (hhandled : s.handled = readyFds L j) :
    Ok (pollBody env s.storage j) s fun r s' =>
      (r = none → Stage listenFd L (j + 1) s') ∧ (r ≠ none → s'.handled.Nodup) := by
  have hlt : j < L.length := by omega
  have hget : L[j]? = some L[j] := List.getElem?_eq_getElem hlt
  have hp : s.pollFds[j]? = some L[j] := hfds ▸ hget
  have hsucc := readyFds_succ hget
  rw [← hhandled] at hsucc
  cases hready : L[j].ready with
  | false =>
      rw [hready, if_neg Bool.false_ne_true, List.append_nil] at hsucc
      exact Stage.ok_of_run (run_pollBody_idle hp hready)
        (.intact hlisten (by omega) hfds hstorage hcapacity hsucc.symm)
  | true =>
      rw [hready, if_pos rfl] at hsucc
      have hclose := hL j (by omega) L[j] hget hready
      have hfd : L[j].fd ≠ s.listenFd := hlisten ▸ hclose.client
      by_cases hread : env.read s.handled.length L[j].fd ≤ 0
      · refine Stage.ok_of_run (run_pollBody_closed hp hready hfd hread)
          (.closed j L[j] hget hready (by omega) hlisten hclose.room ?_ hstorage hcapacity ?_)
        · exact (congrArg _ hfds).trans (filter_eq_eraseIdx hclose.once hget)
        · exact hsucc ▸ hL.nodup (by omega)
      · exact Stage.ok_of_run (run_pollBody_received hp hready hfd (Int.not_le.mp hread))
          (.intact hlisten (by omega) hfds hstorage hcapacity hsucc.symm)

/-- The last iteration of such a round. -/
theorem Harmless.step_last (hL : Harmless listenFd L) (hlisten : s.listenFd = listenFd)
    (hj : j + 1 = L.length) (hfds : s.pollFds = L) (hhandled : s.handled = readyFds L j) :
    Ok (pollBody env s.storage j) s fun r s' =>
      (r = none → Stage listenFd L (j + 1) s') ∧ (r ≠ none → s'.handled.Nodup) := by
  have hlt : j < L.length := by omega
  have hp : s.pollFds[j]? = some L[j] := hfds ▸ List.getElem?_eq_getElem hlt
  have hnodup : s.handled.Nodup := hhandled ▸ hL.nodup (by omega)
  cases hready : L[j].ready with
  | false => exact Stage.ok_of_run (run_pollBody_idle hp hready) (.of_length_le hj.ge hnodup)
  | true =>
      by_cases hfd : L[j].fd = s.listenFd
      · refine ok_pollBody_listen hp hready hfd ⟨nofun, fun _ => hnodup⟩
          fun fd spare => ⟨fun _ => .of_length_le hj.ge ?_, fun hne => absurd rfl hne⟩
        exact (Network.handled_pushBack (s := { s with accepts := s.accepts + 1 }) spare).symm ▸
          hnodup
      · -- no element before was ready: the last one would have to be the listening socket
        have hnil : s.handled = [] := by
          rw [hhandled, readyFds, List.map_eq_nil_iff, List.filter_eq_nil_iff]
          intro q hq hqready
          obtain ⟨i, hclose⟩ := hL.of_mem_take (by omega) hq hqready
          exact hfd ((hclose.last_accepts (List.getElem?_eq_getElem hlt) hj).2.trans hlisten.symm)
        have hone : (s.handled ++ [L[j].fd]).Nodup := by
          rw [hnil]
          exact List.nodup_singleton _
        by_cases hread : env.read s.handled.length L[j].fd ≤ 0
        · exact Stage.ok_of_run (run_pollBody_closed hp hready hfd hread) (.of_length_le hj.ge hone)
        · exact Stage.ok_of_run (run_pollBody_received hp hready hfd (Int.not_le.mp hread))
            (.of_length_le hj.ge hone)

theorem Stage.step (hL : Harmless listenFd L) (hj : j < L.length) (h : Stage listenFd L j s) :
    Ok (pollBody env 0 j) s fun r s' =>
      (r = none → Stage listenFd L (j + 1) s') ∧ (r ≠ none → s'.handled.Nodup) := by
  cases h with
  | intact hlisten _ hfds hstorage hcapacity hhandled =>
      rw [← hstorage]
      rcases Nat.eq_or_lt_of_le hj with hlast | hlt
      · exact hL.step_last hlisten hlast hfds hhandled
      · exact hL.step_intact hlisten hlt hfds hstorage hcapacity hhandled
  | closed i p hp hready hij hlisten hj hfds hstorage hcapacity hhandled =>
      rw [← hstorage]
      exact hL.step_closed hp hready hij hlisten hj hfds hstorage hcapacity hhandled
  | idle hstorage hidle hhandled =>
      obtain ⟨p, hp, hready⟩ := hidle j le_rfl hj
      rw [← hstorage hj]
      exact Stage.ok_of_run (run_pollBody_idle hp hready)
        (.idle (fun _ => hstorage hj) (fun k hk hk' => hidle k (by omega) hk') hhandled)

/-- **A round over harmless contents goes well.** -/
theorem Harmless.ok_runPoll (hL : Harmless listenFd L) (hcapacity : L.length ≤ capacity) :
    Ok (runPoll env) (inRound listenFd L capacity []) fun _ s => s.handled.Nodup := by
  have hstart : Stage listenFd L 0 (inRound listenFd L capacity []) :=
    .intact rfl (Nat.zero_le _) rfl rfl hcapacity rfl
  refine Ok.forLoop (I := Stage listenFd L) (Q := fun s => s.handled.Nodup)
    (n := L.length) ?_ ?_ hstart
  · intro j _ hj s h
    exact h.step hL (by omega)
  · intro s h
    cases h with
    | intact _ hj _ _ _ hhandled =>
        -- the contents are empty
        rw [hhandled, Nat.zero_add]
        exact hL.nodup (by omega)
    | closed _ _ _ _ _ _ hj => omega
    | idle _ _ hhandled => exact hhandled

/-- **When one round reads only elements of `poll_fds` and handles no descriptor twice**, whatever
the accepts and reads do and whatever the capacity of the vector is: exactly for the harmless
contents. -/
theorem poll_round_iff (listenFd : Int) (L : List PollFd) :
    (∀ env capacity, L.length ≤ capacity →
      Ok (runPoll env) (inRound listenFd L capacity []) fun _ s => s.handled.Nodup) ↔
      Harmless listenFd L := by
  constructor
  · intro hok
    apply harmless_of_ok
    exact fun env => (hok env L.length le_rfl).mono fun _ _ _ => trivial
  · intro hL env capacity hcapacity
    exact hL.ok_runPoll hcapacity

/-- A client closes its connection, and an element behind the last one is read; a connection is
accepted, and the next element is read from storage that has been given back. -/
theorem poll_round_faults :
    (runPoll (closing [4])).run
      (inRound 3 [⟨3, pollin, 0⟩, ⟨4, pollin, pollin⟩, ⟨5, pollin, 0⟩] 4 []) =
        .error .outOfBounds ∧
      (runPoll (closing [])).run (inRound 3 [⟨3, pollin, pollin⟩, ⟨4, pollin, 0⟩] 2 []) =
        .error .dangling :=
  ⟨rfl, rfl⟩

example : Harmless 3 [⟨3, pollin, 0⟩, ⟨4, pollin, 0⟩, ⟨5, pollin, pollin⟩] := by decide

example : ¬Harmless 3 [⟨3, pollin, 0⟩, ⟨4, pollin, pollin⟩, ⟨5, pollin, 0⟩] := by decide

end KvStore.PosixNetwork
