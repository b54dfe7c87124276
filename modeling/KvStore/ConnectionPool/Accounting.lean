import KvStore.ConnectionPool.Model

set_option autoImplicit false

/-! # The accounts of the connection pool

The connections that exist are the idle ones in the queue and the ones in the hands of clients, each
in one place (`Partition`), and `_connectionCnt` is their number. Every critical section keeps the
partition, so every run does (`pool_accounted`).

The loop of the scanner is guarded by `_connectionCnt` alone, which also counts the connections that
are lent. When more than `_initSize` are lent and all the idle ones have expired, it empties the
queue and calls `front` once more (`front_of_empty`); the runs without such a scan are those in
which `front` always finds a connection (`front_nonempty_iff`). -/

namespace KvStore.ConnectionPool

open Function KvStore.Lib

/-- The connections of the pool, idle and lent. -/
def Pool.all (p : Pool) : List Nat := p.connectionQue ++ p.lent.map Prod.snd

/-- **The partition**: every connection that exists is idle or lent to one client, and counted
once. -/
structure Partition (p : Pool) : Prop where
  count : p.connectionCnt = p.connectionQue.length + p.lent.length
  nodup : p.all.Nodup
  mem_all : ∀ c, c ∈ p.all ↔ p.alivetime c ≠ none

/-- The most connections the pool may have. -/
def Config.limit (cfg : Config) : Int := max 0 (max cfg.initSize cfg.maxSize)

/-- What a critical section keeps of the pool `p`: nothing is lost from the hands of the clients. -/
structure Keeps (p p' : Pool) : Prop where
  partition : Partition p'
  lent : ∀ x ∈ p.lent, x.2 ∈ p'.all

variable {cfg : Config} {p : Pool}

theorem partition_empty : Partition Pool.empty :=
  ⟨rfl, List.nodup_nil, fun c => by simp [Pool.all, Pool.empty]⟩

/-- A connection in the queue is alive. -/
theorem Partition.alivetime_of_mem (h : Partition p) {c : Nat} (hc : c ∈ p.connectionQue) :
    ∃ t, p.alivetime c = some t :=
  Option.ne_none_iff_exists'.mp ((h.mem_all c).mp (List.mem_append_left _ hc))

theorem Partition.keeps_refl (h : Partition p) : Keeps p p :=
  ⟨h, fun _ hx => List.mem_append_right _ (List.mem_map_of_mem hx)⟩

/-! ## New connections -/

/-- A connection is put into the queue. -/
theorem Partition.push (h : Partition p) {c : Nat} (hc : p.alivetime c = none) (now : Int) :
    Keeps p (((p.refresh c now).push c).count 1) := by
  have hnew : c ∉ p.all := fun hmem => (h.mem_all c).mp hmem hc
  have hperm : ((p.connectionQue ++ [c]) ++ p.lent.map Prod.snd).Perm (c :: p.all) := by
    rw [List.append_assoc]
    exact List.perm_middle
  refine ⟨⟨?_, hperm.nodup_iff.mpr (List.nodup_cons.mpr ⟨hnew, h.nodup⟩), fun d => ?_⟩,
    fun x hx => ?_⟩
  · have hcount := h.count
    simp only [Pool.count, Pool.push, Pool.refresh, List.length_append, List.length_singleton]
    push_cast
    omega
  · refine hperm.mem_iff.trans (List.mem_cons.trans ?_)
    simp only [Pool.count, Pool.push, Pool.refresh]
    by_cases hd : d = c
    · simp [hd]
    · rw [update_of_ne hd]
      simpa [hd] using h.mem_all d
  · exact hperm.mem_iff.mpr (List.mem_cons_of_mem c (h.keeps_refl.lent x hx))

/-- What a new connection does to the pool: one that does not connect is gone again, and the pool is
as before. -/
theorem takes_createConnection (p : Pool) (o : Attempt) :
    Takes (createConnection o) p fun _ p' => p.alivetime o.address = none ∧
      p' = if o.connects then ((p.refresh o.address o.now).push o.address).count 1 else p := by
  refine takes_await fun hfresh => ?_
  rw [ok_bind, ok_modify]
  by_cases hconnects : o.connects = true
  · rw [if_pos hconnects, if_pos hconnects, ok_modify]
    exact ⟨hfresh.2, rfl⟩
  · rw [if_neg hconnects, if_neg hconnects, deleteConnection]
    simp only [ok_bind, ok_get, Pool.refresh, update_self, reduceCtorEq, if_false, ok_modify,
      update_idem]
    refine ⟨hfresh.2, ?_⟩
    rw [← hfresh.2, update_eq_self]

theorem takes_create (h : Partition p) (o : Attempt) :
    Takes (createConnection o) p
      fun _ p' => Keeps p p' ∧ p'.connectionCnt ≤ p.connectionCnt + 1 := by
  refine (takes_createConnection p o).mono ?_
  rintro _ p' ⟨hfresh, rfl⟩
  split_ifs
  · exact ⟨h.push hfresh o.now, le_rfl⟩
  · exact ⟨h.keeps_refl, by omega⟩

/-- The constructor makes at most `_initSize` connections. -/
theorem takes_construct (cfg : Config) (attempts : Nat → Attempt) :
    Takes (construct cfg attempts) Pool.empty fun _ p =>
      Partition p ∧ p.connectionCnt ≤ cfg.limit := by
  have key : ∀ n i p, Partition p → Takes (forLoop (fun i => do
      createConnection (attempts i)
      pure (none : Option Unit)) n i) p
      fun _ p' => Partition p' ∧ p'.connectionCnt ≤ p.connectionCnt + n := by
    intro n
    induction n with
    | zero =>
        intro i p h
        exact Ok.takes ((ok_pure _ _ _).mpr ⟨h, by simp⟩)
    | succ n ih =>
        intro i p h
        rw [forLoop_succ]
        have hbody : Takes
          (do createConnection (attempts i); pure (none : Option Unit)) p fun r p' =>
            r = none ∧ Partition p' ∧ p'.connectionCnt ≤ p.connectionCnt + 1 := by
          refine takes_bind ((takes_create h (attempts i)).mono fun _ p' hp' => ?_)
          exact Ok.takes ((ok_pure _ _ _).mpr ⟨rfl, hp'.1.partition, hp'.2⟩)
        refine takes_bind (hbody.mono ?_)
        rintro r p' ⟨rfl, hpart, hle⟩
        refine (ih (i + 1) p' hpart).mono fun _ p'' hp'' => ⟨hp''.1, ?_⟩
        have hle' := hp''.2
        push_cast
        omega
  refine takes_bind ((key cfg.initSize.toNat 0 Pool.empty partition_empty).mono fun _ p hp => ?_)
  refine Ok.takes ((ok_pure _ _ _).mpr ⟨hp.1, hp.2.trans ?_⟩)
  simp only [Pool.empty, Config.limit]
  omega

/-! ## Borrowed connections -/

theorem Partition.borrow (h : Partition p) (i : Nat) (hne : p.connectionQue ≠ []) :
    Keeps p (p.borrow i) := by
  obtain ⟨c, rest, hque⟩ := List.exists_cons_of_ne_nil hne
  have hperm : (p.borrow i).all.Perm p.all := by
    simp only [Pool.all, Pool.borrow, hque, List.tail_cons, List.headD_cons, List.map_cons,
      List.cons_append]
    exact List.perm_middle
  refine ⟨⟨?_, hperm.nodup_iff.mpr h.nodup, fun d => hperm.mem_iff.trans (h.mem_all d)⟩, fun x hx =>
    hperm.mem_iff.mpr (h.keeps_refl.lent x hx)⟩
  have hcount := h.count
  simp only [Pool.borrow, hque, List.tail_cons, List.length_cons] at hcount ⊢
  push_cast at hcount ⊢
  omega

/-- What a connection that is given back does to the pool. -/
theorem Partition.ok_giveBack_eq (h : Partition p) {i conn : Nat} (hlent : (i, conn) ∈ p.lent)
    (now : Int) :
    Ok (giveBack i conn now) p fun _ p' =>
      p' = ({ p.refresh conn now with lent := p.lent.erase (i, conn) }).push conn := by
  have hmem : conn ∈ p.all := h.keeps_refl.lent _ hlent
  rw [giveBack, ok_bind, ok_get]
  simp only [if_neg ((h.mem_all conn).mp hmem), ok_modify]

theorem Partition.ok_giveBack (h : Partition p) {i conn : Nat} (hlent : (i, conn) ∈ p.lent)
    (now : Int) :
    Ok (giveBack i conn now) p fun _ p' => Keeps p p' ∧ p'.connectionCnt = p.connectionCnt := by
  have hmem : conn ∈ p.all := h.keeps_refl.lent _ hlent
  have hperm : ((p.connectionQue ++ [conn]) ++ (p.lent.erase (i, conn)).map Prod.snd).Perm
      p.all := by
    rw [List.append_assoc]
    refine List.Perm.append_left _ ?_
    exact ((List.perm_cons_erase hlent).map Prod.snd).symm
  refine (h.ok_giveBack_eq hlent now).mono ?_
  rintro _ p' rfl
  refine ⟨⟨⟨?_, hperm.nodup_iff.mpr h.nodup, fun d => hperm.mem_iff.trans ((h.mem_all d).trans ?_)⟩,
    fun x hx => hperm.mem_iff.mpr (h.keeps_refl.lent x hx)⟩, rfl⟩
  · have hcount := h.count
    have hlength := List.length_erase_of_mem hlent
    have hpos := List.length_pos_of_mem hlent
    simp only [Pool.push, Pool.refresh, List.length_append, List.length_singleton, hlength]
    push_cast [Nat.cast_sub hpos]
    omega
  · simp only [Pool.push, Pool.refresh]
    by_cases hd : d = conn
    · simp [hd, (h.mem_all conn).mp hmem]
    · rw [update_of_ne hd]

/-! ## The scanner -/

/-- From its iteration `i` on, a scan never calls `front` on an empty queue: what is left when all
the idle connections are gone is within `_initSize`, or it stops at a connection that has not
expired. -/
def ScanSafe (cfg : Config) (now : Nat → Int) (i : Nat) (p : Pool) : Prop :=
  p.connectionCnt - p.connectionQue.length ≤ cfg.initSize ∨
    ∃ j c t, p.connectionQue[j]? = some c ∧ p.alivetime c = some t ∧ now (i + j) - t < cfg.idleLimit

/-- The pool without its first idle connection. -/
def Pool.dropFront (p : Pool) (c : Nat) (rest : List Nat) : Pool :=
  { p.count (-1) with connectionQue := rest, alivetime := update p.alivetime c none }

section Scan

variable {now : Nat → Int} {i c : Nat} {rest : List Nat} {t : Int}

theorem Partition.dropFront (h : Partition p) (hque : p.connectionQue = c :: rest) :
    Partition (p.dropFront c rest) := by
  have hall : p.all = c :: (p.dropFront c rest).all := by rw [Pool.all, hque]; rfl
  have hnodup := List.nodup_cons.mp (hall ▸ h.nodup)
  refine ⟨?_, hnodup.2, fun d => ?_⟩
  · have hcount := h.count
    rw [hque, List.length_cons] at hcount
    simp only [Pool.dropFront, Pool.count]
    push_cast at hcount
    omega
  · show _ ↔ update p.alivetime c none d ≠ none
    by_cases hd : d = c
    · subst hd
      simpa using hnodup.1
    · rw [update_of_ne hd, ← h.mem_all d, hall, List.mem_cons]
      simp [hd]

/-- The times of the other connections stay as they are. -/
theorem Partition.dropFront_alivetime (h : Partition p)
    (hque : p.connectionQue = c :: rest) {d : Nat} (hd : d ∈ rest) :
    (p.dropFront c rest).alivetime d = p.alivetime d := by
  have hnodup := h.nodup
  rw [Pool.all, hque, List.cons_append] at hnodup
  refine update_of_ne ?_ _ _
  rintro rfl
  exact (List.nodup_cons.mp hnodup).1 (List.mem_append_left _ hd)

/-- An iteration that drops the first connection leaves what decides the rest of the scan. -/
theorem scanSafe_dropFront (h : Partition p) (hque : p.connectionQue = c :: rest)
    (halive : p.alivetime c = some t) (hexpired : cfg.idleLimit ≤ now i - t) :
    ScanSafe cfg now (i + 1) (p.dropFront c rest) ↔ ScanSafe cfg now i p := by
  have halive' : ∀ j d : Nat, rest[j]? = some d →
      (p.dropFront c rest).alivetime d = p.alivetime d :=
    fun j d hd => h.dropFront_alivetime hque (List.mem_of_getElem? hd)
  refine or_congr ?_ ⟨?_, ?_⟩
  · rw [hque, List.length_cons]
    simp only [Pool.dropFront, Pool.count]
    push_cast
    omega
  · rintro ⟨j, d, u, hd, hu, hlt⟩
    refine ⟨j + 1, d, u, by rw [hque]; exact hd, (halive' j d hd) ▸ hu, ?_⟩
    rwa [show i + (j + 1) = i + 1 + j by omega]
  · rintro ⟨j, d, u, hd, hu, hlt⟩
    rw [hque] at hd
    cases j with
    | zero =>
        -- the first connection has expired
        cases hd
        rw [halive] at hu
        cases hu
        rw [Nat.add_zero] at hlt
        omega
    | succ j =>
        refine ⟨j, d, u, hd, (halive' j d hd).trans hu, ?_⟩
        rwa [show i + 1 + j = i + (j + 1) by omega]

/-- An iteration that ends the scan because of the count. -/
theorem run_scanBody_count (now : Nat → Int) (i : Nat) (hcount : ¬cfg.initSize < p.connectionCnt) :
    (scanBody cfg now i).run p = .ok (.inr (), p) := by
  rw [scanBody, run_get_bind, if_neg hcount]
  rfl

/-- An iteration that calls `front` on an empty queue. -/
theorem run_scanBody_nil (now : Nat → Int) (i : Nat) (hcount : cfg.initSize < p.connectionCnt)
    (hque : p.connectionQue = []) : (scanBody cfg now i).run p = .error .outOfBounds := by
  rw [scanBody, run_get_bind, if_pos hcount, hque]
  rfl

/-- An iteration that looks at the connection `c`. -/
theorem run_scanBody (now : Nat → Int) (i : Nat) (hcount : cfg.initSize < p.connectionCnt)
    (hque : p.connectionQue = c :: rest) (halive : p.alivetime c = some t) :
    (scanBody cfg now i).run p =
      if cfg.idleLimit ≤ now i - t then .ok (.inl (i + 1), p.dropFront c rest)
        else .ok (.inr (), p) := by
  rw [scanBody, run_get_bind, if_pos hcount, hque]
  simp only [halive]
  split_ifs
  · have hdelete : (deleteConnection c).run { p.count (-1) with connectionQue := rest } =
        .ok ((), p.dropFront c rest) := by
      have hsome : ({ p.count (-1) with connectionQue := rest } : Pool).alivetime c ≠ none := by
        rw [show ({ p.count (-1) with connectionQue := rest } : Pool).alivetime c
          = some t from halive]
        exact Option.some_ne_none t
      rw [deleteConnection, run_get_bind, if_neg hsome]
      rfl
    exact (run_bind_ok rfl).trans (run_bind_ok hdelete)
  · rfl

/-- **What a scan does**: it drops idle connections, or calls `front` on an empty queue. -/
theorem Partition.scan_loop (cfg : Config) (now : Nat → Int) :
    ∀ (n i : Nat) (p : Pool), Partition p → p.connectionQue.length < n →
      (ScanSafe cfg now i p → Ok (loop (scanBody cfg now) n i) p fun _ p' =>
        Keeps p p' ∧ p'.connectionCnt ≤ p.connectionCnt ∧ p'.connectionQue <:+ p.connectionQue) ∧
      (¬ScanSafe cfg now i p → (loop (scanBody cfg now) n i).run p = .error .outOfBounds) := by
  intro n
  induction n with
  | zero => intro i p _ hn; omega
  | succ n ih =>
      intro i p h hn
      -- the loop is left for its count, for an empty queue, or for a connection not yet expired
      by_cases hcount : cfg.initSize < p.connectionCnt
      swap
      · have hbody := run_scanBody_count now i hcount
        refine ⟨fun _ => ⟨(), p, run_loop_exit hbody, h.keeps_refl, le_rfl,
          List.suffix_rfl⟩, fun hsafe => absurd (Or.inl ?_) hsafe⟩
        omega
      cases hque : p.connectionQue with
      | nil =>
          have hbody := run_scanBody_nil now i hcount hque
          refine ⟨?_, fun _ => run_loop_error hbody⟩
          rintro (hle | ⟨j, d, u, hd, -⟩)
          · rw [hque, List.length_nil] at hle
            omega
          · rw [hque] at hd
            cases hd
      | cons c rest =>
          obtain ⟨t, halive⟩ := h.alivetime_of_mem (hque ▸ List.mem_cons_self)
          have hbody := run_scanBody now i hcount hque halive
          by_cases hexpired : cfg.idleLimit ≤ now i - t
          · rw [if_pos hexpired] at hbody
            obtain ⟨hok, herror⟩ := ih (i + 1) (p.dropFront c rest) (h.dropFront hque) (by
              rw [hque, List.length_cons] at hn
              exact Nat.lt_of_succ_lt_succ hn)
            rw [scanSafe_dropFront h hque halive hexpired] at hok herror
            refine ⟨fun hsafe => ?_, fun hsafe => (run_loop_next hbody).trans (herror hsafe)⟩
            obtain ⟨r, p', hrun, hkeeps, hle, hsuffix⟩ := hok hsafe
            refine ⟨r, p', (run_loop_next hbody).trans hrun, ⟨hkeeps.partition, hkeeps.lent⟩,
              hle.trans ?_, hsuffix.trans (List.suffix_cons c rest)⟩
            simp only [Pool.dropFront, Pool.count]
            omega
          · rw [if_neg hexpired] at hbody
            refine ⟨fun _ => ⟨(), p, run_loop_exit hbody, h.keeps_refl, le_rfl,
              by rw [hque]⟩,
              fun hsafe => absurd (Or.inr ⟨0, c, t, by rw [hque]; rfl, halive, ?_⟩) hsafe⟩
            rw [Nat.add_zero]
            omega

end Scan

/-! ## Runs -/

/-- The accounts of the pool. -/
structure Accounted (cfg : Config) (s : Sys) : Prop where
  partition : Partition s.pool
  bound : s.pool.connectionCnt ≤ cfg.limit

/-- The scan that starts in `s` always finds a connection at the front. -/
def FrontSafe (cfg : Config) (s : Sys) : Step → Prop
  | .scan now => s.locked = false → ScanSafe cfg now 0 s.pool
  | _ => True

section Runs

variable {s : Sys}

/-- A critical section that keeps the accounts. -/
def KeepsAccounts (cfg : Config) (s s' : Sys) : Prop := Accounted cfg s' ∧ Keeps s.pool s'.pool

/-- A step that changes no connection keeps the accounts. -/
theorem Accounted.of_pool_eq (h : Accounted cfg s) {s' : Sys} (hpool : s'.pool = s.pool) :
    KeepsAccounts cfg s s' := by
  rw [KeepsAccounts, hpool]
  exact ⟨⟨hpool ▸ h.partition, hpool ▸ h.bound⟩, h.partition.keeps_refl⟩

theorem Accounted.takes_produce (h : Accounted cfg s) (o : Attempt) :
    Takes (produceConnectionTask cfg o) s fun _ s' => KeepsAccounts cfg s s' := by
  refine takes_bind (Ok.takes ((ok_get s _).mpr ?_))
  split_ifs with hque hcount
  · exact Ok.takes ((ok_modify _ _ _).mpr (h.of_pool_eq rfl))
  · refine takes_bind (takes_zoom ((takes_create h.partition o).mono fun _ p' hp' => ?_))
    refine Ok.takes ((ok_modify _ _ _).mpr ⟨⟨hp'.1.partition, hp'.2.trans ?_⟩, hp'.1⟩)
    rw [Config.limit]
    omega
  · exact Ok.takes ((ok_modify _ _ _).mpr (h.of_pool_eq rfl))

theorem Accounted.ok_getConnection (h : Accounted cfg s) (i : Nat) :
    Ok (getConnection i) s fun _ s' => KeepsAccounts cfg s s' := by
  rw [getConnection, ok_bind, ok_get]
  split_ifs with hque htimedOut
  · exact (ok_modify _ _ _).mpr (h.of_pool_eq rfl)
  · exact (ok_modify _ _ _).mpr (h.of_pool_eq rfl)
  · have hkeeps := h.partition.borrow i hque
    exact (ok_modify _ _ _).mpr ⟨⟨hkeeps.partition, h.bound⟩, hkeeps⟩

/-- A step keeps the accounts, unless it is a scan that finds the queue empty. -/
theorem Accounted.takes_step (h : Accounted cfg s) (o : Step) (hsafe : FrontSafe cfg s o) :
    Takes (step cfg o) s fun _ s' => KeepsAccounts cfg s s' := by
  cases o with
  | produce o => exact takes_await_of fun _ => h.takes_produce o
  | produceNotify => exact takes_act fun _ => h.of_pool_eq rfl
  | produceSpurious => exact takes_act fun _ => h.of_pool_eq rfl
  | get i => exact takes_await fun _ => h.ok_getConnection i
  | getNotify i => exact takes_act fun _ => h.of_pool_eq rfl
  | spurious i => exact takes_act fun _ => h.of_pool_eq rfl
  | timeout i => exact takes_act fun _ => h.of_pool_eq rfl
  | giveBack i conn now =>
      refine takes_await_of fun hlent => takes_zoom ?_
      refine ((h.partition.ok_giveBack hlent.2 now).mono fun _ p' hp' => ?_).takes
      exact ⟨⟨hp'.1.partition, hp'.2.le.trans h.bound⟩, hp'.1⟩
  | scan now =>
      refine takes_await_of fun hfree => takes_zoom ?_
      have hloop := (h.partition.scan_loop cfg now (s.pool.connectionQue.length + 1) 0 s.pool
        (Nat.lt_succ_self _)).1 (hsafe hfree)
      refine takes_bind (Ok.takes ((ok_get s.pool _).mpr (hloop.mono fun _ p' hp' => ?_).takes))
      exact ⟨⟨hp'.1.partition, hp'.2.1.trans h.bound⟩, hp'.1⟩

theorem Accounted.step_faults (h : Accounted cfg s) (o : Step) (hbare : ¬FrontSafe cfg s o) :
    (step cfg o).run s = .error .outOfBounds := by
  cases o with
  | scan now =>
      obtain ⟨hfree, hscan⟩ := Classical.not_imp.mp hbare
      have hrun : (scan cfg now).run s.pool = .error .outOfBounds :=
        (h.partition.scan_loop cfg now _ 0 s.pool (Nat.lt_succ_self _)).2 hscan
      rw [step, run_await, if_pos hfree, onPool, run_zoom, hrun]
      rfl
  | _ => exact absurd trivial hbare

/-- A run keeps the accounts, unless one of its scans finds the queue empty. -/
theorem Accounted.takes_runAll {ops : List Step} (h : Accounted cfg s)
    (hsafe : AllSteps (step cfg) (FrontSafe cfg) s ops) :
    Takes (runAll (step cfg) ops) s fun _ s' => Accounted cfg s' := by
  induction ops generalizing s with
  | nil => exact Ok.takes ((ok_pure _ _ _).mpr h)
  | cons o ops ih =>
      cases hrun : (step cfg o).run s with
      | error e =>
          obtain rfl := (h.takes_step o hsafe.1).eq_blocked hrun
          exact Or.inl (run_bind_error hrun)
      | ok q =>
          have hq := (h.takes_step o hsafe.1).of_run hrun
          refine takes_bind (Ok.takes ((ok_of_run hrun _).mpr ?_))
          refine takes_bind ((ih hq.1 (hsafe.2 _ _ hrun)).mono fun rs s' hs' => ?_)
          exact Ok.takes ((ok_pure _ _ _).mpr hs')

theorem Accounted.runAll_faults {ops : List Step} (h : Accounted cfg s)
    (hbare : ¬AllSteps (step cfg) (FrontSafe cfg) s ops) :
    (runAll (step cfg) ops).run s = .error .outOfBounds := by
  induction ops generalizing s with
  | nil => exact absurd trivial hbare
  | cons o ops ih =>
      by_cases hsafe : FrontSafe cfg s o
      · -- the step is taken, and a later one goes wrong
        obtain ⟨r, s', hrun, hrest⟩ : ∃ r s', (step cfg o).run s = .ok (r, s') ∧
            ¬AllSteps (step cfg) (FrontSafe cfg) s' ops := by
          by_contra hnone
          push Not at hnone
          exact hbare ⟨hsafe, hnone⟩
        have hs' := (h.takes_step o hsafe).of_run hrun
        rw [runAll, run_bind_ok hrun]
        exact run_bind_error (ih hs'.1 hrest)
      · exact run_bind_error (h.step_faults o hsafe)

end Runs

/-- A critical section that has returned. -/
theorem run_onPool_ok {c : Exec Pool Unit} {u : Unit} {s s' : Sys}
    (hrun : (onPool c).run s = .ok (u, s')) :
    c.run s.pool = .ok (u, s'.pool) ∧ s' = { s with pool := s'.pool } := by
  rw [onPool, run_zoom] at hrun
  cases hc : c.run s.pool with
  | error e =>
      rw [hc] at hrun
      cases hrun
  | ok q =>
      rw [hc] at hrun
      cases hrun
      exact ⟨rfl, rfl⟩

/-- Every step of the threads meets the condition `P`. -/
def SessionSteps (cfg : Config) (P : Sys → Step → Prop) (attempts : Nat → Attempt)
    (ops : List Step) : Prop :=
  ∀ p, (construct cfg attempts).run Pool.empty = .ok ((), p) →
    AllSteps (step cfg) P { start with pool := p } ops

/-- Every scan of the run always finds a connection at the front. -/
def ScansSafe (cfg : Config) : (Nat → Attempt) → List Step → Prop :=
  SessionSteps cfg (FrontSafe cfg)

section Sessions

variable {attempts : Nat → Attempt} {ops : List Step}

theorem run_construct (hrun : (construct cfg attempts).run Pool.empty = .ok ((), p)) :
    (onPool (construct cfg attempts)).run start = .ok ((), { start with pool := p }) := by
  rw [onPool, run_zoom, show start.pool = Pool.empty from rfl, hrun]
  rfl

/-- Inversion of a run: the constructor returned, and so did the steps. -/
theorem session_ok {rs : List Unit} {s : Sys}
    (hrun : (session cfg attempts ops).run start = .ok (rs, s)) :
    ∃ p, (construct cfg attempts).run Pool.empty = .ok ((), p) ∧
      (runAll (step cfg) ops).run { start with pool := p } = .ok (rs, s) := by
  obtain ⟨u, p, hconstruct, hsteps⟩ := run_zoom_bind_ok.mp hrun
  exact ⟨p, hconstruct, hsteps⟩

theorem takes_session (hsafe : ScansSafe cfg attempts ops) :
    Takes (session cfg attempts ops) start fun _ s => Accounted cfg s := by
  cases hrun : (construct cfg attempts).run Pool.empty with
  | error e =>
      obtain rfl := (takes_construct cfg attempts).eq_blocked hrun
      refine Or.inl (run_bind_error ?_)
      rw [onPool, run_zoom, show start.pool = Pool.empty from rfl, hrun]
      rfl
  | ok q =>
      have hq := (takes_construct cfg attempts).of_run hrun
      refine takes_bind (Ok.takes ((ok_of_run (run_construct hrun) _).mpr ?_))
      exact Accounted.takes_runAll ⟨hq.1, hq.2⟩ (hsafe q.2 hrun)

theorem session_faults (hbare : ¬ScansSafe cfg attempts ops) :
    (session cfg attempts ops).run start = .error .outOfBounds := by
  rw [ScansSafe, SessionSteps] at hbare
  push Not at hbare
  obtain ⟨p, hrun, hsteps⟩ := hbare
  have hp := (takes_construct cfg attempts).of_run hrun
  rw [session, run_bind_ok (run_construct hrun)]
  exact Accounted.runAll_faults ⟨hp.1, hp.2⟩ hsteps

end Sessions

/-- **When the scanner reads an empty queue**: it does not in the runs whose scans are all safe, and
in no others. -/
theorem front_nonempty_iff (cfg : Config) (attempts : Nat → Attempt) (ops : List Step) :
    (session cfg attempts ops).run start ≠ .error .outOfBounds ↔ ScansSafe cfg attempts ops := by
  constructor
  · intro hrun
    by_contra hbare
    exact hrun (session_faults hbare)
  · intro hsafe hrun
    exact absurd ((takes_session hsafe).eq_blocked hrun) (by decide)

/-- The addresses and times of the samples: every connection succeeds, at time zero. -/
def sampleAttempts : Nat → Attempt := fun i => ⟨i + 1, true, 0⟩

/-- The one connection of the pool is lent when the scanner comes. -/
theorem front_of_empty :
    fault ((session ⟨0, 1, 60⟩ sampleAttempts
      [.produce ⟨1, true, 0⟩, .produceNotify, .get 0, .getNotify 0, .scan fun _ => 0]).run start) =
        some .outOfBounds := by
  decide +kernel

/-- **The accounts of the pool**: in every run in which the scanner does not read an empty queue,
`_connectionCnt` is the number of the connections that are idle or lent, and within its bound; no
connection is in two places; and the lent ones exist, also after whatever step comes next. -/
theorem pool_accounted (cfg : Config) (attempts : Nat → Attempt) (ops : List Step)
    (hfront : (session cfg attempts ops).run start ≠ .error .outOfBounds) :
    Takes (session cfg attempts ops) start fun _ s =>
      s.pool.connectionCnt = s.pool.connectionQue.length + s.pool.lent.length ∧
        s.pool.connectionCnt ≤ max 0 (max cfg.initSize cfg.maxSize) ∧
        (s.pool.connectionQue ++ s.pool.lent.map Prod.snd).Nodup ∧
        (∀ x ∈ s.pool.lent, s.pool.alivetime x.2 ≠ none) ∧
        ∀ o s', (step cfg o).run s = .ok ((), s') → ∀ x ∈ s.pool.lent,
          s'.pool.alivetime x.2 ≠ none := by
  have hsafe : ScansSafe cfg attempts ops := by
    by_contra hbare
    exact hfront (session_faults hbare)
  refine (takes_session hsafe).mono
    fun _ s h => ⟨h.partition.count, h.bound, h.partition.nodup, ?_, ?_⟩
  · intro x hx
    exact (h.partition.mem_all x.2).mp (h.partition.keeps_refl.lent x hx)
  · intro o s' hrun x hx
    have hstep : FrontSafe cfg s o := by
      by_contra hbare
      rw [h.step_faults o hbare] at hrun
      cases hrun
    have hs' := (h.takes_step o hstep).of_run hrun
    exact (hs'.1.partition.mem_all x.2).mp (hs'.2.lent x hx)

/-- A connection is made, borrowed and given back; another one is made, and expires. -/
def sampleOps : List Step :=
  [.get 0, .getNotify 0, .produce ⟨2, true, 0⟩, .produceNotify, .giveBack 0 1 5,
    .scan fun _ => 60000]

theorem pool_accounted_sample :
    fault ((session ⟨1, 2, 60⟩ sampleAttempts sampleOps).run start) = none ∧
      Takes (session ⟨1, 2, 60⟩ sampleAttempts sampleOps) start fun _ s =>
        s.pool.connectionCnt = s.pool.connectionQue.length + s.pool.lent.length := by
  have hrun : fault ((session ⟨1, 2, 60⟩ sampleAttempts sampleOps).run start) = none := by
    decide +kernel
  refine ⟨hrun, (pool_accounted _ _ _ fun herror => ?_).mono fun _ _ h => h.1⟩
  rw [herror] at hrun
  cases hrun

/-- A pool with two negative sizes has more connections than both: none. -/
theorem count_of_negative_sizes :
    ((session ⟨-1, -1, 60⟩ sampleAttempts []).run start).toOption.map
      (fun r => r.2.pool.connectionCnt) =
        some 0 ∧ ¬(0 : Int) ≤ max (-1) (-1) := by
  decide +kernel

end KvStore.ConnectionPool
