import KvStore.ConnectionPool.Accounting

set_option autoImplicit false

/-! # The idle times of the connections

A step takes connections from the front of the queue, or puts one at its end whose `_alivetime` is
what `clock` has just returned (`Accounted.step_moves`). As long as `clock` does not decrease, the
queue is ordered by `_alivetime`. So when the scanner breaks off at a connection that has not been
idle for long enough, none of those behind it has (`idle_in_order`). -/

namespace KvStore.ConnectionPool

open Function KvStore.Lib

/-! ## The readings of the clock -/

/-- What `clock` returns during a step from `s` to `s'`. A scan reads it once for every connection
it drops, and once more if it breaks off. -/
def Step.readings (cfg : Config) (s s' : Sys) : Step → List Int
  | .produce o =>
      if s.pool.connectionQue = [] ∧ s.pool.connectionCnt < cfg.maxSize ∧ o.connects = true then
        [o.now]
      else
        []
  | .giveBack _ _ now => [now]
  | .scan now =>
      let dropped := s.pool.connectionQue.length - s'.pool.connectionQue.length
      (List.range (if cfg.initSize < s'.pool.connectionCnt then dropped + 1 else dropped)).map now
  | _ => []

/-- What `clock` returns during a run. -/
def readings (cfg : Config) : Sys → List Step → List Int
  | _, [] => []
  | s, o :: ops =>
      match (step cfg o).run s with
      | .ok (_, s') => o.readings cfg s s' ++ readings cfg s' ops
      | .error _ => []

/-- What `clock` returns in `n` iterations of the constructor, from the iteration `i` on. -/
def constructReadings (attempts : Nat → Attempt) : Nat → Nat → List Int
  | 0, _ => []
  | n + 1, i =>
      if (attempts i).connects then
        (attempts i).now :: constructReadings attempts n (i + 1)
      else
        constructReadings attempts n (i + 1)

/-- What `clock` returns in the constructor, and then in the steps `ops`. -/
def sessionReadings (cfg : Config) (attempts : Nat → Attempt) (ops : List Step) : List Int :=
  constructReadings attempts cfg.initSize.toNat 0 ++
    match (construct cfg attempts).run Pool.empty with
    | .ok (_, p) => readings cfg { start with pool := p } ops
    | .error _ => []

/-! ## The order of the queue -/

/-- The queue is ordered by `_alivetime`, and all of it is earlier than the readings to come. -/
structure Punctual (later : List Int) (p : Pool) : Prop where
  ordered : p.connectionQue.Pairwise fun c d =>
    ∀ t u, p.alivetime c = some t → p.alivetime d = some u → t ≤ u
  early : ∀ c ∈ p.connectionQue, ∀ t, p.alivetime c = some t → ∀ r ∈ later, t ≤ r

/-- What a step does to the queue: it takes some connections from its front, or puts one at its end,
with the time that has just been read. -/
inductive Moves (p p' : Pool) (read : List Int) : Prop
  | drop (hque : p'.connectionQue <:+ p.connectionQue)
      (halive : ∀ c ∈ p'.connectionQue, p'.alivetime c = p.alivetime c)
  | push (c : Nat) (now : Int) (hread : read = [now]) (hnew : c ∉ p.connectionQue)
      (hque : p'.connectionQue = p.connectionQue ++ [c])
      (halive : p'.alivetime = update p.alivetime c (some now))

variable {cfg : Config} {p p' : Pool} {read later : List Int} {u : Unit}

theorem Punctual.moves (h : Punctual (read ++ later) p) (hmove : Moves p p' read)
    (hclock : (read ++ later).Pairwise (· ≤ ·)) : Punctual later p' := by
  cases hmove with
  | drop hque halive =>
      refine ⟨(h.ordered.sublist hque.sublist).imp_of_mem ?_, fun c hc t ht r hr => ?_⟩
      · intro c d hc hd hle t u ht hu
        rw [halive c hc] at ht
        rw [halive d hd] at hu
        exact hle t u ht hu
      · rw [halive c hc] at ht
        exact h.early c (hque.subset hc) t ht r (List.mem_append_right read hr)
  | push c now hread hnew hque halive =>
      subst hread
      have hold : ∀ d ∈ p.connectionQue, p'.alivetime d = p.alivetime d := by
        intro d hd
        have hne : d ≠ c := fun heq => hnew (heq ▸ hd)
        rw [halive, update_of_ne hne]
      have hlast : p'.alivetime c = some now := by rw [halive, update_self]
      have hnow : ∀ d ∈ p.connectionQue, ∀ t, p'.alivetime d = some t → t ≤ now := by
        intro d hd t ht
        rw [hold d hd] at ht
        exact h.early d hd t ht now List.mem_cons_self
      have hlater : ∀ r ∈ later, now ≤ r := (List.pairwise_cons.mp hclock).1
      refine ⟨?_, fun d hd t ht r hr => ?_⟩
      · rw [hque, List.pairwise_append]
        refine ⟨h.ordered.imp_of_mem ?_, List.pairwise_singleton _ c, ?_⟩
        · intro d e hd he hle t u ht hu
          rw [hold d hd] at ht
          rw [hold e he] at hu
          exact hle t u ht hu
        · intro d hd e he t u ht hu
          rw [List.mem_singleton.mp he, hlast] at hu
          cases hu
          exact hnow d hd t ht
      · rw [hque] at hd
        rcases List.mem_append.mp hd with hd | hd
        · exact (hnow d hd t ht).trans (hlater r hr)
        · rw [List.mem_singleton.mp hd, hlast] at ht
          cases ht
          exact hlater r hr

/-! ## What the critical sections do to the queue -/

theorem moves_of_eq (hque : p'.connectionQue = p.connectionQue)
    (halive : p'.alivetime = p.alivetime) : Moves p p' read :=
  .drop (hque ▸ List.suffix_rfl) fun c _ => congrFun halive c

theorem Partition.notMem_of_fresh (h : Partition p) {c : Nat} (hc : p.alivetime c = none) :
    c ∉ p.connectionQue :=
  fun hmem => (h.mem_all c).mp (List.mem_append_left _ hmem) hc

theorem Partition.moves_create (h : Partition p) {o : Attempt}
    (hrun : (createConnection o).run p = .ok (u, p')) :
    Moves p p' (if o.connects then [o.now] else []) := by
  obtain ⟨hfresh, rfl⟩ := (takes_createConnection p o).of_run hrun
  by_cases hconnects : o.connects = true
  · rw [if_pos hconnects, if_pos hconnects]
    exact .push o.address o.now rfl (h.notMem_of_fresh hfresh) rfl rfl
  · rw [if_neg hconnects]
    exact moves_of_eq rfl rfl

theorem Partition.moves_giveBack (h : Partition p) {i conn : Nat}
    (hlent : (i, conn) ∈ p.lent) {now : Int}
    (hrun : (giveBack i conn now).run p = .ok (u, p')) : Moves p p' [now] := by
  have hmem : conn ∈ p.lent.map Prod.snd := List.mem_map_of_mem hlent
  have hnew : conn ∉ p.connectionQue :=
    fun hque => (List.nodup_append.mp h.nodup).2.2 conn hque conn hmem rfl
  obtain rfl := (ok_of_run hrun _).mp (h.ok_giveBack_eq hlent now)
  exact .push conn now rfl hnew rfl rfl

/-- What a scan that returns has done: it has dropped `k` connections, and if it has broken off, the
first one that is left has not been idle for long enough. -/
theorem Partition.returns_scanLoop (cfg : Config) (now : Nat → Int) (n i : Nat)
    (h : Partition p) : Returns (loop (scanBody cfg now) n i) p fun _ p' =>
      ∃ k ≤ p.connectionQue.length, p'.connectionQue = p.connectionQue.drop k ∧
        (∀ c ∈ p'.connectionQue, p'.alivetime c = p.alivetime c) ∧
        (cfg.initSize < p'.connectionCnt → ∃ c rest t, p'.connectionQue = c :: rest ∧
          p'.alivetime c = some t ∧ now (i + k) - t < cfg.idleLimit) := by
  induction n generalizing i p with
  | zero => exact returns_throw _ _ _
  | succ n ih =>
      intro u p' hrun
      by_cases hcount : cfg.initSize < p.connectionCnt
      swap
      · rw [run_loop_exit (run_scanBody_count now i hcount)] at hrun
        cases hrun
        exact ⟨0, Nat.zero_le _, rfl, fun _ _ => rfl, fun hlt => absurd hlt hcount⟩
      cases hque : p.connectionQue with
      | nil =>
          rw [run_loop_error (run_scanBody_nil now i hcount hque)] at hrun
          cases hrun
      | cons c rest =>
          obtain ⟨t, halive⟩ := h.alivetime_of_mem (hque ▸ List.mem_cons_self)
          have hbody := run_scanBody now i hcount hque halive
          by_cases hexpired : cfg.idleLimit ≤ now i - t
          · rw [if_pos hexpired] at hbody
            rw [run_loop_next hbody] at hrun
            obtain ⟨k, hk, hdrop, hsame, hbreak⟩ := ih (i + 1) (h.dropFront hque) u p' hrun
            change k ≤ rest.length at hk
            change p'.connectionQue = rest.drop k at hdrop
            refine ⟨k + 1, Nat.succ_le_succ hk, hdrop, fun d hd => ?_, ?_⟩
            · exact (hsame d hd).trans
                (h.dropFront_alivetime hque (List.mem_of_mem_drop (hdrop ▸ hd)))
            · rwa [Nat.add_right_comm] at hbreak
          · rw [if_neg hexpired] at hbody
            rw [run_loop_exit hbody] at hrun
            cases hrun
            refine ⟨0, Nat.zero_le _, hque, fun _ _ => rfl, fun _ => ⟨c, rest, t, hque, halive, ?_⟩⟩
            rw [Nat.add_zero]
            omega

/-! ## Runs -/

section Runs

variable {s s' : Sys}

theorem Accounted.scan_step (h : Accounted cfg s) {now : Nat → Int}
    (hrun : (step cfg (.scan now)).run s = .ok (u, s')) :
    ∃ k ≤ s.pool.connectionQue.length, s'.pool.connectionQue = s.pool.connectionQue.drop k ∧
      (∀ c ∈ s'.pool.connectionQue, s'.pool.alivetime c = s.pool.alivetime c) ∧
      (cfg.initSize < s'.pool.connectionCnt → ∃ c rest t, s'.pool.connectionQue = c :: rest ∧
        s'.pool.alivetime c = some t ∧ now k - t < cfg.idleLimit) := by
  obtain ⟨-, hrun⟩ := run_await_ok.mp hrun
  have hscan :=
    returns_get_bind (h.partition.returns_scanLoop cfg now _ 0) u s'.pool (run_onPool_ok hrun).1
  simpa only [Nat.zero_add] using hscan

theorem Accounted.moves_produce (h : Accounted cfg s) (o : Attempt) :
    Returns (produceConnectionTask cfg o) s fun _ s' =>
      Moves s.pool s'.pool (Step.readings cfg s s' (.produce o)) := by
  refine returns_get_bind ?_
  split_ifs with hque hcount
  · exact returns_modify (moves_of_eq rfl rfl)
  · refine returns_bind fun u s₁ hrun => returns_modify ?_
    have hmove := h.partition.moves_create (run_onPool_ok hrun).1
    have hque : s.pool.connectionQue = [] := not_not.mp hque
    simpa only [Step.readings, hque, hcount, true_and] using hmove
  · exact returns_modify (moves_of_eq rfl rfl)

/-- **What a step does to the queue.** -/
theorem Accounted.step_moves (h : Accounted cfg s) {o : Step}
    (hrun : (step cfg o).run s = .ok (u, s')) : Moves s.pool s'.pool (o.readings cfg s s') := by
  cases o with
  | produce o => exact h.moves_produce o u s' (run_await_ok.mp hrun).2
  | get i =>
      have hget : Returns (getConnection i) s fun _ s' => Moves s.pool s'.pool [] := by
        refine returns_get_bind ?_
        split_ifs
        · exact returns_modify (moves_of_eq rfl rfl)
        · exact returns_modify (moves_of_eq rfl rfl)
        · exact returns_modify (.drop (List.tail_suffix _) fun _ _ => rfl)
      exact hget u s' (run_await_ok.mp hrun).2
  | giveBack i conn now =>
      obtain ⟨⟨-, hlent⟩, hrun⟩ := run_await_ok.mp hrun
      exact h.partition.moves_giveBack hlent (run_onPool_ok hrun).1
  | scan now =>
      obtain ⟨k, -, hdrop, hsame, -⟩ := h.scan_step hrun
      exact .drop (hdrop ▸ List.drop_suffix k _) hsame
  | produceNotify | produceSpurious | getNotify | spurious | timeout =>
      obtain ⟨-, rfl⟩ := run_act_ok.mp hrun
      exact moves_of_eq rfl rfl

/-- A step that returns keeps the accounts. -/
theorem Accounted.of_run (h : Accounted cfg s) {o : Step}
    (hrun : (step cfg o).run s = .ok (u, s')) : Accounted cfg s' := by
  have hsafe : FrontSafe cfg s o := by
    by_contra hbare
    rw [h.step_faults o hbare] at hrun
    cases hrun
  exact ((h.takes_step o hsafe).of_run hrun).1

/-- The queue stays in order in a run. -/
theorem Punctual.runAll {ops : List Step} {rs : List Unit} (h : Accounted cfg s)
    (hpunctual : Punctual (readings cfg s ops) s.pool)
    (hclock : (readings cfg s ops).Pairwise (· ≤ ·))
    (hrun : (runAll (step cfg) ops).run s = .ok (rs, s')) :
    Accounted cfg s' ∧ Punctual [] s'.pool := by
  induction ops generalizing s rs with
  | nil =>
      cases hrun
      exact ⟨h, hpunctual⟩
  | cons o ops ih =>
      obtain ⟨u, s₁, rs', ho, hrest, rfl⟩ := runAll_cons_ok.mp hrun
      simp only [readings, ho] at hpunctual hclock
      have hmove := h.step_moves ho
      exact ih (h.of_run ho) (hpunctual.moves hmove hclock)
        (List.pairwise_append.mp hclock).2.1 hrest

/-- The constructor fills the queue in order. -/
theorem Punctual.construct {attempts : Nat → Attempt}
    (hclock : (constructReadings attempts cfg.initSize.toNat 0 ++ later).Pairwise (· ≤ ·))
    (hrun : (construct cfg attempts).run Pool.empty = .ok (u, p)) :
    Punctual later p ∧ later.Pairwise (· ≤ ·) := by
  have key : ∀ n i p, Partition p → Punctual (constructReadings attempts n i ++ later) p →
      (constructReadings attempts n i ++ later).Pairwise (· ≤ ·) →
      Returns (forLoop (fun i => do
        createConnection (attempts i)
        pure (none : Option Unit)) n i) p fun _ p' => Punctual later p' := by
    intro n
    induction n with
    | zero => exact fun i p _ hp _ => returns_pure hp
    | succ n ih =>
        intro i p hpart hp hle
        rw [forLoop_succ]
        refine returns_bind (returns_bind fun u p' hcreate => returns_pure ?_)
        have hpart' := ((takes_create hpart _).of_run hcreate).1.partition
        have hmove := hpart.moves_create hcreate
        have hsplit : constructReadings attempts (n + 1) i ++ later =
            (if (attempts i).connects then [(attempts i).now] else []) ++
              (constructReadings attempts n (i + 1) ++ later) := by
          rw [constructReadings]
          split_ifs <;> rfl
        rw [hsplit] at hp hle
        exact ih (i + 1) p' hpart' (hp.moves hmove hle) (List.pairwise_append.mp hle).2.1
  have hempty : Punctual (constructReadings attempts cfg.initSize.toNat 0 ++ later) Pool.empty :=
    ⟨List.Pairwise.nil, fun c hc => absurd hc List.not_mem_nil⟩
  have hreturns : Returns (ConnectionPool.construct cfg attempts) Pool.empty
      fun _ p' => Punctual later p' :=
    returns_bind
      ((key _ 0 Pool.empty partition_empty hempty hclock).mono fun _ _ h => returns_pure h)
  exact ⟨hreturns u p hrun, (List.pairwise_append.mp hclock).2.1⟩

end Runs

theorem idleLimit_le (hmin : -2147484 < cfg.maxIdleTime) :
    cfg.idleLimit ≤ cfg.maxIdleTime * 1000 := by
  rw [Config.idleLimit, Int.bmod_def]
  split_ifs <;> omega

/-- **Idle connections are reclaimed up to the right place.** As long as `clock` does not decrease,
the queue is ordered by `_alivetime` after every run; and when the scan that comes next breaks off,
which is when more than `_initSize` connections are left, no connection in the queue has been idle
for `_maxIdleTime * 1000` at its last reading of the clock. The product is the `int` of the code,
which is not above the true one unless that is less than every `int`. -/
theorem idle_in_order (cfg : Config) (attempts : Nat → Attempt) (ops : List Step)
    {rs : List Unit} {s : Sys} (hrun : (session cfg attempts ops).run start = .ok (rs, s))
    (hclock : (sessionReadings cfg attempts ops).Pairwise (· ≤ ·)) :
    (s.pool.connectionQue.Pairwise fun c d =>
      ∃ t u, s.pool.alivetime c = some t ∧ s.pool.alivetime d = some u ∧ t ≤ u) ∧
    ∀ now s', (step cfg (.scan now)).run s = .ok ((), s') → cfg.initSize < s'.pool.connectionCnt →
      let last := now (s.pool.connectionQue.length - s'.pool.connectionQue.length)
      ∀ c ∈ s'.pool.connectionQue, ∃ t, s'.pool.alivetime c = some t ∧ last - t < cfg.idleLimit ∧
        (-2147484 < cfg.maxIdleTime → last - t < cfg.maxIdleTime * 1000) := by
  obtain ⟨p, hconstruct, hsteps⟩ := session_ok hrun
  rw [sessionReadings, hconstruct] at hclock
  obtain ⟨hp, hlater⟩ := Punctual.construct hclock hconstruct
  have hq := (takes_construct cfg attempts).of_run hconstruct
  have hstart : Accounted cfg { start with pool := p } := ⟨hq.1, hq.2⟩
  obtain ⟨h, hpunctual⟩ := Punctual.runAll hstart hp hlater hsteps
  constructor
  · refine hpunctual.ordered.imp_of_mem fun {c d} hc hd hle => ?_
    obtain ⟨t, ht⟩ := h.partition.alivetime_of_mem hc
    obtain ⟨u, hu⟩ := h.partition.alivetime_of_mem hd
    exact ⟨t, u, ht, hu, hle t u ht hu⟩
  · intro now s' hscan hleft last c hc
    obtain ⟨k, hk, hdrop, hsame, hbreak⟩ := h.scan_step hscan
    obtain ⟨front, rest, t₀, hque, ht₀, hlt⟩ := hbreak hleft
    have hmove : Moves s.pool s'.pool [] := .drop (hdrop ▸ List.drop_suffix k _) hsame
    have hordered := (hpunctual.moves hmove List.Pairwise.nil).ordered
    have hlast : last = now k := by
      show now (_ - s'.pool.connectionQue.length) = now k
      rw [hdrop, List.length_drop, Nat.sub_sub_self hk]
    obtain ⟨t, ht⟩ := (h.of_run hscan).partition.alivetime_of_mem hc
    -- the first connection is the one that has been idle for the longest time
    have hle : t₀ ≤ t := by
      rw [hque] at hc hordered
      rcases List.mem_cons.mp hc with rfl | hc
      · exact (Option.some.inj (ht₀.symm.trans ht)).le
      · exact (List.pairwise_cons.mp hordered).1 c hc t₀ t ht₀ ht
    have hidle : last - t < cfg.idleLimit := by
      rw [hlast]
      omega
    exact ⟨t, ht, hidle, fun hmin => hidle.trans_le (idleLimit_le hmin)⟩

/-- A connection that was made later is before one that has been given back since; a scan breaks
off. -/
def orderedOps : List Step :=
  [.get 0, .getNotify 0, .produce ⟨2, true, 3⟩, .produceNotify, .giveBack 0 1 5,
    .scan fun i => 10 + i]

theorem idle_in_order_sample :
    sessionReadings ⟨1, 2, 60⟩ sampleAttempts orderedOps = [0, 3, 5, 10] ∧
      ∃ rs s, (session ⟨1, 2, 60⟩ sampleAttempts orderedOps).run start = .ok (rs, s) ∧
        s.pool.connectionQue = [2, 1] ∧
        s.pool.connectionQue.Pairwise fun c d =>
          ∃ t u, s.pool.alivetime c = some t ∧ s.pool.alivetime d = some u ∧ t ≤ u := by
  have hread : sessionReadings ⟨1, 2, 60⟩ sampleAttempts orderedOps = [0, 3, 5, 10] := by
    decide +kernel
  have hok : Ok (session ⟨1, 2, 60⟩ sampleAttempts orderedOps) start fun _ s =>
      s.pool.connectionQue = [2, 1] :=
        ok_of_view (fun s : Sys => s.pool.connectionQue) (by decide +kernel)
  obtain ⟨rs, s, hrun, hque⟩ := hok
  exact ⟨hread, rs, s, hrun, hque, (idle_in_order _ _ _ hrun (hread ▸ by decide)).1⟩

end KvStore.ConnectionPool
