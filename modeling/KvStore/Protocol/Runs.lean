import KvStore.Array.Runs
import KvStore.Hash.Runs
import KvStore.Protocol.Model
import KvStore.Rbtree.Runs

set_option autoImplicit false

/-! # Requests on the wire

A client sends requests to one engine: the tree through the commands with an `R`, the hash table
through those with an `H`. Each engine answers every request as the abstract store does, printed by
the dispatcher (`TreeHolds.ok_issue`, `HashHolds.ok_issue`), so a client that sets no key twice
cannot tell them apart (`replies_agree`). -/

namespace KvStore.Protocol

open KvStore.Lib

/-! ## Requests -/

/-- What a client can ask of an engine. -/
inductive Request where
  | call (o : Op)
  | count
  deriving DecidableEq

/-- The five commands of an engine. -/
structure Family where
  set : Cmd
  get : Cmd
  del : Cmd
  mod : Cmd
  count : Cmd

def array : Family := ⟨.set, .get, .del, .mod, .count⟩

def rbtree : Family := ⟨.rset, .rget, .rdel, .rmod, .rcount⟩

def hash : Family := ⟨.hset, .hget, .hdel, .hmod, .hcount⟩

/-- The command of a request. -/
def Family.cmd (F : Family) : Request → Cmd
  | .call (.set ..) => F.set
  | .call (.get ..) => F.get
  | .call (.delete ..) => F.del
  | .call (.modify ..) => F.mod
  | .count => F.count

/-- The arguments of a request. -/
def Request.args : Request → List CStr
  | .call (.set k v) => [k, v]
  | .call (.get k) => [k]
  | .call (.delete k) => [k]
  | .call (.modify k v) => [k, v]
  | .count => []

/-- The words of the message that makes a request. -/
def Family.words (F : Family) (r : Request) : List CStr := (F.cmd r).name :: r.args

/-- The token array with the words of a message in front of its old entries. -/
def fill (words : List CStr) (stale : Tokens) : Tokens := fun i => words[i]?.or (stale i)

/-- Make a request, with the old entries of the token array. -/
def Family.issue (F : Family) (x : Request × Tokens) : Srv (Option CStr) :=
  kvstoreParserProtocol allOk (fill (F.words x.1) x.2) (F.words x.1).length

/-! ## What the replies should be -/

/-- The text the dispatcher prints for the outcome of a call. -/
def reply (o : Op) : Outcome → CStr
  | .value v => getReply v
  | .code r =>
      match o with
      | .set .. => setReply r
      | _ => changeReply r

/-- One request to the abstract store. -/
def answer (dup : Int) (m : KvMap) : Request → Option CStr × KvMap
  | .call o => (some (reply o (m.step dup o).1), (m.step dup o).2)
  | .count => (some (countReply (int32 m.keys.card)), m)

/-- The request does not set a key that is there already. -/
def FreshRequest (m : KvMap) : Request → Prop
  | .call o => m.Fresh o
  | .count => True

/-- The key of the request, if it has one, is of bytes up to `127`, and not so long that the sum of
its characters leaves the range of `int`; the words of a message are shorter than its buffer of
`BUFFER_LENGTH` bytes. -/
def AsciiRequest : Request → Prop
  | .call o => (∀ b ∈ o.key.bytes, b < 128) ∧ o.key.strlen < 2 ^ 24
  | .count => True

theorem answer_fresh {m : KvMap} {r : Request} (h : FreshRequest m r) (dup dup' : Int) :
    answer dup m r = answer dup' m r := by
  cases r with
  | call o => rw [answer, answer, KvMap.step_fresh h dup dup']
  | count => rfl

/-! ## Dispatch -/

section Dispatch

variable {σ : Server} {stale : Tokens} {Q : Option CStr → Server → Prop}

/-- No two commands have the same name. -/
theorem findCommand_name (cmd : Cmd) : findCommand cmd.name = some cmd := by
  cases cmd <;> decide

theorem name_of_findCommand {w : CStr} {cmd : Cmd} (h : findCommand w = some cmd) :
    cmd.name = w := by
  have hfound := List.find?_some h
  exact (CStr.strcmp_eq_zero_iff ..).mp (of_decide_eq_true hfound)

theorem parserProtocol_nil (alloc : AllocPlan) (stale : Tokens) :
    kvstoreParserProtocol alloc (fill [] stale) ([] : List CStr).length = pure none := by
  rw [kvstoreParserProtocol]
  cases fill [] stale 0 <;> rfl

/-- The words of a message whose first one is a command. -/
theorem parserProtocol_command (alloc : AllocPlan) (cmd : Cmd) (args : List CStr) (stale : Tokens) :
    kvstoreParserProtocol alloc (fill (cmd.name :: args) stale) (cmd.name :: args).length = do
      return some (← execute alloc cmd (args[0]?.or (stale 1)) (args[1]?.or (stale 2))) := by
  have hcount : ((cmd.name :: args).length : Int) ≠ 0 := by
    rw [List.length_cons]
    omega
  have hfirst : fill (cmd.name :: args) stale 0 = some cmd.name := rfl
  rw [kvstoreParserProtocol, hfirst]
  dsimp only
  rw [if_neg hcount, findCommand_name]
  rfl

/-- A first word that is no command is looked up behind the end of `commands`. -/
theorem parserProtocol_unknown (alloc : AllocPlan) {w : CStr} (hw : findCommand w = none)
    (args : List CStr) (stale : Tokens) :
    kvstoreParserProtocol alloc (fill (w :: args) stale) (w :: args).length
      = throw .outOfBounds := by
  have hcount : ((w :: args).length : Int) ≠ 0 := by
    rw [List.length_cons]
    omega
  have hfirst : fill (w :: args) stale 0 = some w := rfl
  rw [kvstoreParserProtocol, hfirst]
  dsimp only
  rw [if_neg hcount, hw]

theorem ok_issue_iff (F : Family) (r : Request) (stale : Tokens) (σ : Server)
    (Q : Option CStr → Server → Prop) :
    Ok (F.issue (r, stale)) σ Q ↔
      Ok (execute allOk (F.cmd r) (fill (F.words r) stale 1) (fill (F.words r) stale 2)) σ
        (fun msg σ' => Q (some msg) σ') := by
  rw [Family.issue, Family.words, parserProtocol_command, ok_bind]
  simp only [ok_pure]
  exact Iff.rfl

/-- The command of a call, with the arguments of the call and old entries behind them. -/
def Family.execute (F : Family) (alloc : AllocPlan) (o : Op) (stale : Tokens) : Srv CStr :=
  Protocol.execute alloc (F.cmd (.call o)) (fill (F.words (.call o)) stale 1)
    (fill (F.words (.call o)) stale 2)

variable {alloc : AllocPlan} {P : CStr → Server → Prop}

theorem ok_execute_array (o : Op) :
    Ok (array.execute alloc o stale) σ P ↔
      Ok (Array.call alloc (.ofOp o)) σ.array (fun out a => P (reply o out) (σ.withArray a)) := by
  cases o <;>
    simp only [array, Family.execute, Family.cmd, Family.words, Request.args, fill, execute,
      kvstoreArraySet, kvstoreArrayGet, kvstoreArrayDelete, kvstoreArrayModify, onArray, ok_bind,
      ok_zoom, ok_pure, Array.call, Array.Call.ofOp, reply] <;> rfl

theorem ok_execute_rbtree (o : Op) :
    Ok (rbtree.execute alloc o stale) σ P ↔
      Ok (Rbtree.call alloc o) σ.tree (fun out t => P (reply o out) (σ.withTree t)) := by
  cases o <;>
    simp only [rbtree, Family.execute, Family.cmd, Family.words, Request.args, fill, execute,
      kvstoreRbtreeSet, kvstoreRbtreeGet, kvstoreRbtreeDelete, kvstoreRbtreeModify, onTree, ok_bind,
      ok_zoom, ok_pure, Rbtree.call, reply] <;> rfl

theorem ok_execute_hash (o : Op) :
    Ok (hash.execute alloc o stale) σ P ↔
      Ok (Hash.call alloc o) σ.hash (fun out t => P (reply o out) (σ.withHash t)) := by
  cases o <;>
    simp only [hash, Family.execute, Family.cmd, Family.words, Request.args, fill, execute,
      kvstoreHashSet, kvstoreHashGet, kvstoreHashDelete, kvstoreHashModify, onHash,
      ok_bind, ok_zoom,
      ok_pure, Hash.call, reply] <;> rfl

theorem ok_issue_array (o : Op) :
    Ok (array.issue (.call o, stale)) σ Q ↔
      Ok (Array.call allOk (.ofOp o)) σ.array
        (fun out a => Q (some (reply o out)) (σ.withArray a)) := by
  rw [ok_issue_iff]
  exact ok_execute_array o

theorem ok_issue_rbtree (o : Op) :
    Ok (rbtree.issue (.call o, stale)) σ Q ↔
      Ok (Rbtree.step o) σ.tree (fun out t => Q (some (reply o out)) (σ.withTree t)) := by
  rw [ok_issue_iff]
  exact ok_execute_rbtree o

theorem ok_issue_hash (o : Op) :
    Ok (hash.issue (.call o, stale)) σ Q ↔
      Ok (Hash.step o) σ.hash (fun out t => Q (some (reply o out)) (σ.withHash t)) := by
  rw [ok_issue_iff]
  exact ok_execute_hash o

end Dispatch

/-! ## The engines behind the dispatcher -/

section Engines

variable {σ : Server} {m : KvMap} {r : Request} {stale : Tokens}

/-- The tree holds the map `m`, and its counter is right. -/
def TreeHolds (σ : Server) (m : KvMap) : Prop :=
  Rbtree.contents σ.tree = m ∧
    ∃ T es, Rbtree.Intact σ.tree T es ∧ Rbtree.Ahead σ.tree es 0

/-- The hash table holds the map `m`. -/
def HashHolds (σ : Server) (m : KvMap) : Prop := Hash.Represents σ.hash m

theorem treeHolds_created (h : σ.tree = Rbtree.created) : TreeHolds σ ∅ := by
  rw [TreeHolds, h]
  exact ⟨Rbtree.contents_created, .nil, [], Rbtree.intact_created, rfl⟩

/-- **One request to the tree** is answered as by the abstract store. -/
theorem TreeHolds.ok_issue (h : TreeHolds σ m) (hr : FreshRequest m r) :
    Ok (rbtree.issue (r, stale)) σ
      (fun msg σ' => msg = (answer 0 m r).1 ∧ TreeHolds σ' (answer 0 m r).2) := by
  obtain ⟨rfl, T, es, hs, hc⟩ := h
  cases r with
  | call o =>
      have ho : (Rbtree.contents σ.tree).Fresh o := hr
      rw [ok_issue_rbtree]
      refine (hs.ok_step o).mono ?_
      rintro out t ⟨hstep, T', es', ht, hc'⟩
      obtain ⟨hout, hm⟩ := Prod.ext_iff.mp hstep
      -- nothing is counted that is not stored
      rw [if_pos ho] at hc'
      exact ⟨congrArg (fun out => some (reply o out)) hout, hm, T', es', ht, hc' 0 hc⟩
  | count =>
      rw [ok_issue_iff]
      show Ok (do return countReply (← kvstoreRbtreeCount)) σ _
      rw [ok_bind, kvstoreRbtreeCount, onTree, ok_zoom, Rbtree.kvsRbtreeCount, ok_bind, ok_readDesc,
        ok_pure, ok_pure, hc, add_zero, ← hs.card_contents]
      exact ⟨rfl, rfl, T, es, hs, hc⟩

/-- **One request to the hash table** is answered as by the abstract store. -/
theorem HashHolds.ok_issue (h : HashHolds σ m) (hr : AsciiRequest r) :
    Ok (hash.issue (r, stale)) σ
      (fun msg σ' => msg = (answer 1 m r).1 ∧ HashHolds σ' (answer 1 m r).2) := by
  obtain ⟨rfl, tab, hs⟩ := h
  cases r with
  | call o =>
      obtain ⟨hascii, hlen⟩ : (∀ b ∈ o.key.bytes, b < 128) ∧ o.key.strlen < 2 ^ 24 := hr
      rw [ok_issue_hash]
      refine (hs.ok_step (Hash.inRange_of_ascii (by decide) hascii hlen)).mono ?_
      rintro out t ⟨hstep, ht⟩
      obtain ⟨hout, hm⟩ := Prod.ext_iff.mp hstep
      exact ⟨congrArg (fun out => some (reply o out)) hout, hm, ht⟩
  | count =>
      rw [ok_issue_iff]
      show Ok (do return countReply (← kvstoreHashCount)) σ _
      rw [ok_bind, kvstoreHashCount, onHash, ok_zoom, hs.ok_kvsHashCount, ok_pure]
      exact ⟨rfl, rfl, tab, hs⟩

end Engines

/-! ## Whole conversations -/

section Conversations

variable {σ : Server} {m : KvMap} {xs : List (Request × Tokens)}

/-- **A run of requests to the tree** in which no key is set that is there. -/
theorem TreeHolds.ok_run (h : TreeHolds σ m)
    (hfresh : Allowed (answer 0) FreshRequest m (xs.map Prod.fst)) :
    Ok (runAll rbtree.issue xs) σ (fun msgs σ' =>
      msgs = (specRun (answer 0) m (xs.map Prod.fst)).1 ∧
        TreeHolds σ' (specRun (answer 0) m (xs.map Prod.fst)).2) := by
  rw [← specRun_map]
  refine Ok.runAll_sim TreeHolds (fun x σ m hx hσ => ?_) xs σ m (allowed_map.mpr hfresh) h
  exact hσ.ok_issue hx

/-- **A run of requests to the hash table** in which no key is set that is there. -/
theorem HashHolds.ok_run (h : HashHolds σ m)
    (hfresh : Allowed (answer 0) FreshRequest m (xs.map Prod.fst))
    (hascii : ∀ x ∈ xs, AsciiRequest x.1) :
    Ok (runAll hash.issue xs) σ (fun msgs σ' =>
      msgs = (specRun (answer 0) m (xs.map Prod.fst)).1 ∧
        HashHolds σ' (specRun (answer 0) m (xs.map Prod.fst)).2) := by
  rw [← specRun_map]
  refine Ok.runAll_sim HashHolds (fun x σ m hx hσ => ?_) xs σ m
    ((allowed_map.mpr hfresh).and_forall hascii) h
  rw [answer_fresh hx.1 0 1]
  exact hσ.ok_issue hx.2

/-- Every request is answered with a text. -/
theorem answers_some (dup : Int) (m : KvMap) (reqs : List Request) :
    ∃ msgs : List CStr, (specRun (answer dup) m reqs).1 = msgs.map some := by
  induction reqs generalizing m with
  | nil => exact ⟨[], rfl⟩
  | cons r reqs ih =>
      obtain ⟨msgs, hmsgs⟩ := ih (answer dup m r).2
      obtain ⟨msg, hmsg⟩ : ∃ msg, (answer dup m r).1 = some msg := by
        cases r <;> exact ⟨_, rfl⟩
      exact ⟨msg :: msgs, by rw [specRun, hmsgs, hmsg, List.map_cons]⟩

/-- **The tree and the hash table are interchangeable on the wire.** The same requests, sent to a
new tree and to a table of `NULL` slots, get the same replies, as long as no request sets a key that
is there; what the token array held before each request does not matter. -/
theorem replies_agree (σ σ' : Server) (hσ : σ.tree = Rbtree.created)
    (hσ' : Hash.NullTable Hash.maxTableSize σ'.hash) (xs ys : List (Request × Tokens))
    (hxy : xs.map Prod.fst = ys.map Prod.fst) (hascii : ∀ r ∈ xs.map Prod.fst, AsciiRequest r)
    (hfresh : Allowed (answer 0) FreshRequest ∅ (xs.map Prod.fst)) :
    ∃ (msgs : List CStr) (τ τ' : Server),
      (runAll rbtree.issue xs).run σ = .ok (msgs.map some, τ) ∧
        (runAll hash.issue ys).run σ' = .ok (msgs.map some, τ') := by
  have hhash : HashHolds σ' ∅ := hσ'.represents
  have hascii' : ∀ y ∈ ys, AsciiRequest y.1 := by
    intro y hy
    exact hascii y.1 (hxy ▸ List.mem_map_of_mem hy)
  obtain ⟨out, τ, hrun, hout, -⟩ := (treeHolds_created hσ).ok_run hfresh
  obtain ⟨out', τ', hrun', hout', -⟩ := hhash.ok_run (hxy ▸ hfresh) hascii'
  obtain ⟨msgs, hmsgs⟩ := answers_some 0 ∅ (xs.map Prod.fst)
  refine ⟨msgs, τ, τ', ?_, ?_⟩
  · rw [hrun, hout, hmsgs]
  · rw [hrun', hout', ← hxy, hmsgs]

theorem ascii_k : (∀ b ∈ (CStr.lit "k").bytes, b < 128) ∧ (CStr.lit "k").strlen < 2 ^ 24 := by
  have hbytes : (CStr.lit "k").bytes = [107] := by decide
  have hlen : (CStr.lit "k").strlen = 1 := by decide
  simp [hbytes, hlen]

/-- A set, a get, a count and two deletes, once over empty token arrays and once over arrays with
old entries. -/
theorem replies_agree_session :
    ∃ (msgs : List CStr) (τ τ' : Server),
      (runAll rbtree.issue
        ([.call (.set (CStr.lit "k") (CStr.lit "v")), .call (.get (CStr.lit "k")),
        .count, .call (.delete (CStr.lit "k")), .call (.delete (CStr.lit "k"))].map
          fun r => (r, fun _ => none))).run ⟨Array.created, Rbtree.created, Hash.nulled⟩
            = .ok (msgs.map some, τ) ∧
        (runAll hash.issue
          ([.call (.set (CStr.lit "k") (CStr.lit "v")), .call (.get (CStr.lit "k")),
          .count, .call (.delete (CStr.lit "k")), .call (.delete (CStr.lit "k"))].map
            fun r => (r, fun _ => some (CStr.lit "old")))).run
              ⟨Array.created, Rbtree.created, Hash.nulled⟩ = .ok (msgs.map some, τ') := by
  refine replies_agree _ _ rfl Hash.nullTable_nulled _ _ rfl ?_ ?_
  · simpa [AsciiRequest, Op.key] using ascii_k
  · exact ⟨Finmap.notMem_empty, trivial, trivial, trivial, trivial, trivial⟩

end Conversations

end KvStore.Protocol
