import KvStore.Protocol.Runs

set_option autoImplicit false

/-! # What the replies to deletes and modifies say

The dispatcher reads the result of a delete or modify in three ways: negative is an error, zero is
success, positive is a key that does not exist. Only the array engine has a positive result, and not
when it is empty: its result for a missing key is `array_idx`. The other engines report a missing
key as `-1`, which is printed as an error (`change_reply_iff`).
-/

namespace KvStore.Protocol

open KvStore.Lib

/-! ## Engines -/

/-- The three engines. -/
inductive Engine where
  | array
  | rbtree
  | hash
  deriving DecidableEq

def Engine.family : Engine → Family
  | .array => Protocol.array
  | .rbtree => Protocol.rbtree
  | .hash => Protocol.hash

/-- The state of the engine is one that calls lead to. -/
def Engine.Reachable : Engine → Server → Prop
  | .array, σ => Array.Reachable σ.array
  | .rbtree, σ => Rbtree.Reachable σ.tree
  | .hash, σ => Hash.Reachable σ.hash

/-- The key is stored in the engine. -/
def Engine.Stored : Engine → Server → CStr → Prop
  | .array, σ, k => ∃ i < Array.kvsArraySize, Array.keyAt σ.array i = some k
  | .rbtree, σ, k => k ∈ Rbtree.contents σ.tree
  | .hash, σ, k => k ∈ Hash.contents Hash.maxTableSize σ.hash

/-- The result of a delete or modify of a key that is not stored. -/
def Engine.missing : Engine → Server → Int
  | .array, σ => σ.array.arrayIdx
  | .rbtree, _ => -1
  | .hash, _ => -1

/-- The operation is a delete or a modify. -/
def Changes : Op → Prop
  | .delete _ => True
  | .modify _ _ => True
  | _ => False

section Results

variable {o : Op} {out : Outcome}

theorem array_change {s s' : Array.ArrayT} (hs : Array.Reachable s) (ho : Changes o)
    (h : (Array.call allOk (.ofOp o)).run s = .ok (out, s')) :
    ((∃ i < Array.kvsArraySize, Array.keyAt s i = some o.key) ∧ out = .code 0) ∨
      ((¬∃ i < Array.kvsArraySize, Array.keyAt s i = some o.key) ∧ out = .code s.arrayIdx) := by
  have hinv := hs.inv
  have hle := hinv.le
  have hfound : ∀ {k : CStr} {i : Nat}, Array.Finds s k i →
      ∃ i < Array.kvsArraySize, Array.keyAt s i = some k := by
    intro k i hi
    have hlt := hi.lt
    exact ⟨i, by omega, hi.key⟩
  have hgone : ∀ {k : CStr}, Array.Misses s k →
      ¬∃ i < Array.kvsArraySize, Array.keyAt s i = some k := by
    rintro k hmiss ⟨i, hi, hk⟩
    exact hmiss.gone hinv i hi hk
  cases o with
  | set k v => cases ho
  | get k => cases ho
  | delete k =>
      obtain ⟨r, hrun, rfl⟩ := Array.run_packed h
      rcases Array.scan_cases s k with ⟨i, hi⟩ | ⟨i, hi⟩ | hmiss
      · rw [Array.kvsArrayDelete_of_finds hle hi] at hrun
        cases hrun
        exact Or.inl ⟨hfound hi, rfl⟩
      · rw [Array.kvsArrayDelete_of_hitsHole hle hi] at hrun
        cases hrun
      · rw [Array.kvsArrayDelete_of_misses hle hmiss] at hrun
        cases hrun
        exact Or.inr ⟨hgone hmiss, rfl⟩
  | modify k v =>
      obtain ⟨r, hrun, rfl⟩ := Array.run_packed h
      rcases Array.scan_cases s k with ⟨i, hi⟩ | ⟨i, hi⟩ | hmiss
      · rw [Array.kvsArrayModify_of_finds hle hi rfl] at hrun
        cases hrun
        exact Or.inl ⟨hfound hi, rfl⟩
      · rw [Array.kvsArrayModify_of_hitsHole hle hi] at hrun
        cases hrun
      · rw [Array.kvsArrayModify_of_misses hle hmiss] at hrun
        cases hrun
        exact Or.inr ⟨hgone hmiss, rfl⟩

theorem rbtree_change {s s' : Rbtree.State} (hs : Rbtree.Reachable s) (ho : Changes o)
    (h : (Rbtree.step o).run s = .ok (out, s')) :
    (o.key ∈ Rbtree.contents s ∧ out = .code 0) ∨
    (o.key ∉ Rbtree.contents s ∧ out = .code (-1)) := by
  obtain ⟨T, es, hholds⟩ := hs.holds
  have hok : Ok (Rbtree.step o) s (fun out _ => (o.key ∈ Rbtree.contents s ∧ out = .code 0) ∨
      (o.key ∉ Rbtree.contents s ∧ out = .code (-1))) := by
    cases o with
    | set k v => cases ho
    | get k => cases ho
    | delete k =>
        rw [Rbtree.step, Rbtree.call, ok_bind]
        refine Rbtree.ok_kvsRbtreeDelete hholds k (fun s' T' E₁ e E₂ hE hk _ _ _ _ => ?_)
          (fun hk => ?_)
        · refine (ok_pure ..).mpr (Or.inl ⟨hholds.mem_contents.mpr ?_, rfl⟩)
          rw [hE]
          simp [Op.key, hk]
        · exact (ok_pure ..).mpr (Or.inr ⟨mt hholds.mem_contents.mp hk, rfl⟩)
    | modify k v =>
        rw [Rbtree.step, Rbtree.call, ok_bind]
        refine Rbtree.ok_kvsRbtreeModify hholds allOk k v
          (fun s' E₁ e e' E₂ _ hE hk _ _ _ _ _ _ => ?_)
          (fun s' E₁ e e' E₂ hfail => absurd hfail (by simp [allOk])) (fun hk => ?_)
        · refine (ok_pure ..).mpr (Or.inl ⟨hholds.mem_contents.mpr ?_, rfl⟩)
          rw [hE]
          simp [Op.key, hk]
        · exact (ok_pure ..).mpr (Or.inr ⟨mt hholds.mem_contents.mp hk, rfl⟩)
  exact hok.returns out s' h

theorem hash_change {s s' : Hash.State} (hs : Hash.Reachable s) (ho : Changes o)
    (h : (Hash.step o).run s = .ok (out, s')) :
    (o.key ∈ Hash.contents Hash.maxTableSize s ∧ out = .code 0) ∨
      (o.key ∉ Hash.contents Hash.maxTableSize s ∧ out = .code (-1)) := by
  obtain ⟨tab, hholds⟩ := hs.holds
  have hr : Hash.InRange Hash.maxTableSize o.key := Hash.inRange_of_run h
  obtain ⟨hstep, -⟩ := (hholds.ok_step hr).returns out s' h
  have hout : out = _ := congrArg Prod.fst hstep
  cases o with
  | set k v => cases ho
  | get k => cases ho
  | delete k =>
      by_cases hk : k ∈ Hash.contents Hash.maxTableSize s
      · exact Or.inl ⟨hk, by rw [hout, KvMap.step, if_pos hk]⟩
      · exact Or.inr ⟨hk, by rw [hout, KvMap.step, if_neg hk]⟩
  | modify k v =>
      by_cases hk : k ∈ Hash.contents Hash.maxTableSize s
      · exact Or.inl ⟨hk, by rw [hout, KvMap.step, if_pos hk]⟩
      · exact Or.inr ⟨hk, by rw [hout, KvMap.step, if_neg hk]⟩

end Results

section Replies

variable {σ σ' : Server} {o : Op} {stale : Tokens} {msg : Option CStr}

theorem reply_change (ho : Changes o) (r : Int) : reply o (.code r) = changeReply r := by
  cases o with
  | set k v => cases ho
  | get k => cases ho
  | delete k => rfl
  | modify k v => rfl

/-- The reply to a delete or modify, in every engine. -/
theorem change_reply {E : Engine} (hE : E.Reachable σ) (ho : Changes o)
    (h : (E.family.issue (.call o, stale)).run σ = .ok (msg, σ')) :
    (E.Stored σ o.key ∧ msg = some (changeReply 0)) ∨
      (¬E.Stored σ o.key ∧ msg = some (changeReply (E.missing σ))) := by
  have hreply := reply_change ho
  have hok : Ok (E.family.issue (.call o, stale)) σ (fun m _ => m = msg) := ⟨msg, σ', h, rfl⟩
  cases E with
  | array =>
      obtain ⟨out, a, hrun, rfl⟩ := (ok_issue_array o).mp hok
      rcases array_change hE ho hrun with ⟨hst, rfl⟩ | ⟨hst, rfl⟩
      · exact Or.inl ⟨hst, by rw [hreply]⟩
      · exact Or.inr ⟨hst, by rw [hreply]; rfl⟩
  | rbtree =>
      obtain ⟨out, t, hrun, rfl⟩ := (ok_issue_rbtree o).mp hok
      rcases rbtree_change hE ho hrun with ⟨hst, rfl⟩ | ⟨hst, rfl⟩
      · exact Or.inl ⟨hst, by rw [hreply]⟩
      · exact Or.inr ⟨hst, by rw [hreply]; rfl⟩
  | hash =>
      obtain ⟨out, t, hrun, rfl⟩ := (ok_issue_hash o).mp hok
      rcases hash_change hE ho hrun with ⟨hst, rfl⟩ | ⟨hst, rfl⟩
      · exact Or.inl ⟨hst, by rw [hreply]⟩
      · exact Or.inr ⟨hst, by rw [hreply]; rfl⟩

/-- The three texts are different. -/
theorem changeReply_eq_iff (r : Int) :
    (changeReply r = CStr.lit "SUCCESS" ↔ r = 0) ∧
    (changeReply r = CStr.lit "NO EXIST" ↔ 0 < r) := by
  rcases lt_trichotomy r 0 with hr | rfl | hr
  · rw [changeReply, if_pos hr]
    exact ⟨iff_of_false (by decide) (by omega), iff_of_false (by decide) (by omega)⟩
  · exact ⟨iff_of_true rfl rfl, iff_of_false (by decide) (by omega)⟩
  · rw [changeReply, if_neg (by omega), if_neg (by omega)]
    exact ⟨iff_of_false (by decide) (by omega), iff_of_true rfl hr⟩

end Replies

/-- **When the reply to a delete or modify tells whether the key was stored.** For every engine, in
every reachable state, and for every such request that returns: the reply is `SUCCESS` exactly for a
stored key and `NO EXIST` exactly for another one, if and only if the key is stored, or the engine
is the array and not empty. -/
theorem change_reply_iff (E : Engine) (σ σ' : Server) (hE : E.Reachable σ) (o : Op) (ho : Changes o)
    (stale : Tokens) (msg : Option CStr)
    (h : (E.family.issue (.call o, stale)).run σ = .ok (msg, σ')) :
    ((msg = some (CStr.lit "SUCCESS") ↔ E.Stored σ o.key) ∧
        (msg = some (CStr.lit "NO EXIST") ↔ ¬E.Stored σ o.key)) ↔
      E.Stored σ o.key ∨ E = .array ∧ 0 < σ.array.arrayIdx := by
  rcases change_reply hE ho h with ⟨hst, rfl⟩ | ⟨hst, rfl⟩
  · obtain ⟨hsucc, hno⟩ := changeReply_eq_iff 0
    rw [Option.some.injEq, Option.some.injEq, hsucc, hno]
    simp [hst]
  · obtain ⟨hsucc, hno⟩ := changeReply_eq_iff (E.missing σ)
    rw [Option.some.injEq, Option.some.injEq, hsucc, hno]
    cases E with
    | array =>
        simp only [Engine.missing, hst, iff_false, not_false_iff, iff_true, false_or, true_and]
        omega
    | rbtree => simp [Engine.missing, hst]
    | hash => simp [Engine.missing, hst]

/-- A server whose engines have just been created, its hash table cleared. -/
def started : Server := ⟨Array.created, Rbtree.created, Hash.nulled⟩

/-- In an array with two entries the replies to deletes tell what is stored. -/
theorem change_reply_two_entries :
    ∃ σ', (array.issue (.call (.delete (CStr.lit "c")), fun _ => none)).run
        (started.withArray Array.twoEntries) = .ok (some (CStr.lit "NO EXIST"), σ') ∧
      ¬Engine.array.Stored (started.withArray Array.twoEntries) (CStr.lit "c") := by
  refine ⟨_, rfl, ?_⟩
  have hiff := change_reply_iff .array (started.withArray Array.twoEntries) _
    Array.reachable_twoEntries (.delete (CStr.lit "c")) trivial (fun _ => none) _ rfl
  exact (hiff.mpr (Or.inr ⟨rfl, by decide⟩)).2.mp rfl

/-- The replies to deletes of a key that was never set: not one of the engines says `NO EXIST`. -/
theorem missing_key_replies :
    (∃ σ', Engine.array.Reachable started ∧ ¬Engine.array.Stored started (CStr.lit "k") ∧
      (array.issue (.call (.delete (CStr.lit "k")), fun _ => none)).run started
        = .ok (some (CStr.lit "SUCCESS"), σ')) ∧
    (∃ σ', Engine.rbtree.Reachable started ∧ ¬Engine.rbtree.Stored started (CStr.lit "k") ∧
      (rbtree.issue (.call (.delete (CStr.lit "k")), fun _ => none)).run started
        = .ok (some (CStr.lit "ERROR"), σ')) ∧
    (∃ σ', Engine.hash.Reachable started ∧ ¬Engine.hash.Stored started (CStr.lit "k") ∧
      (hash.issue (.call (.delete (CStr.lit "k")), fun _ => none)).run started
        = .ok (some (CStr.lit "ERROR"), σ')) := by
  refine ⟨⟨_, Reach.refl .., ?_, rfl⟩, ?_, ?_⟩
  · rintro ⟨i, -, hk⟩
    cases hk
  · have htree : TreeHolds started ∅ := treeHolds_created rfl
    have hok : Ok (rbtree.issue (.call (.delete (CStr.lit "k")), fun _ => none)) started _ :=
      htree.ok_issue trivial
    obtain ⟨msg, σ', hrun, hmsg, -⟩ := hok
    have hans : (answer 0 ∅ (.call (.delete (CStr.lit "k")))).1
      = some (CStr.lit "ERROR") := by decide
    refine ⟨σ', Reach.refl .., ?_, by rw [hrun, hmsg, hans]⟩
    show CStr.lit "k" ∉ Rbtree.contents Rbtree.created
    rw [Rbtree.contents_created]
    exact Finmap.notMem_empty
  · have hhash : HashHolds started ∅ := Hash.nullTable_nulled.represents
    have hok : Ok (hash.issue (.call (.delete (CStr.lit "k")), fun _ => none)) started _ :=
      hhash.ok_issue ascii_k
    obtain ⟨msg, σ', hrun, hmsg, -⟩ := hok
    have hans : (answer 1 ∅ (.call (.delete (CStr.lit "k")))).1
      = some (CStr.lit "ERROR") := by decide
    refine ⟨σ', ⟨_, Hash.nullTable_nulled, Reach.refl ..⟩, ?_, by rw [hrun, hmsg, hans]⟩
    show CStr.lit "k" ∉ Hash.contents Hash.maxTableSize Hash.nulled
    rw [Hash.nullTable_nulled.contents]
    exact Finmap.notMem_empty

end KvStore.Protocol
