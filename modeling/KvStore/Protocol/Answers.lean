import KvStore.Protocol.Stale

set_option autoImplicit false

/-! # What a client gets back

Each message is processed in a connection of its own (`serve`). The value a client gets for a key is
then, byte for byte, the word of the message that bound it last (`serve_round_trip`): a word of a
message is never empty, has no space in it and fits into the reply, so it is neither cut nor
mistaken for the text `NO EXIST`.

Not every message has an answer: one without a word gets no reply, and a first word that is no
command stops the server (`request_answered_iff`). -/

namespace KvStore.Protocol

open KvStore.Lib

/-! ## One message -/

/-- Process a message in a connection that has just been cleared; returns the write buffer. -/
def serve (alloc : AllocPlan) (x : List UInt8 × Tokens) : Srv (Buffer bufferLength) := do
  match (kvstoreRequest alloc x.2).run (inbox (← get) x.1) with
  | .error e => throw e
  | .ok (_, w) => do
      set w.server
      return w.item.wbuffer

theorem serve_run (alloc : AllocPlan) (x : List UInt8 × Tokens) (σ : Server) :
    (serve alloc x).run σ = outcome alloc x.2 (inbox σ x.1) := by
  rw [serve, run_get_bind, outcome]
  cases (kvstoreRequest alloc x.2).run (inbox σ x.1) with
  | error e => rfl
  | ok p => rfl

/-- A message whose first word is a command. -/
theorem ok_serve_iff {msg : List UInt8} {cmd : Cmd} {args : List CStr}
    (h : msg.length < bufferLength) (hwords : words space msg = cmd.name :: args)
    (hlen : args.length < kvstoreMaxTokens) (alloc : AllocPlan) (stale : Tokens) (σ : Server)
    (Q : Buffer bufferLength → Server → Prop) :
    Ok (serve alloc (msg, stale)) σ Q ↔
      Ok (execute alloc cmd (args[0]?.or (stale 1)) (args[1]?.or (stale 2))) σ
        (fun m σ' => Q (printed (m, σ')).1 σ') := by
  have hrun := (serve_run alloc (msg, stale) σ).trans
    (outcome_eq (inbox_nul h) ((inbox_words h).trans hwords) hlen alloc stale)
  cases hexec : (execute alloc cmd (args[0]?.or (stale 1)) (args[1]?.or (stale 2))).run σ with
  | error e =>
      have hfail : (serve alloc (msg, stale)).run σ = .error e := by
        rw [hrun]
        exact congrArg (Except.map printed) hexec
      refine iff_of_false ?_ ?_
      · rintro ⟨b, σ', h, -⟩
        rw [hfail] at h
        cases h
      · rintro ⟨m, σ', h, -⟩
        rw [hexec] at h
        cases h
  | ok p =>
      have hok : (serve alloc (msg, stale)).run σ = .ok (printed p) := by
        rw [hrun]
        exact congrArg (Except.map printed) hexec
      rw [ok_of_run hexec, ok_of_run hok]
      exact Iff.rfl

/-! ## Messages to an engine -/

def Engine.commands (E : Engine) : List Cmd :=
  [E.family.set, E.family.get, E.family.del, E.family.mod, E.family.count]

/-- A string that fits into the read buffer with its terminator, of no more words than there are
entries in the token array. -/
structure Sendable (msg : List UInt8) : Prop where
  short : msg.length < bufferLength
  noNul : 0 ∉ msg
  fits : (words space msg).length ≤ kvstoreMaxTokens

/-- A message to the engine: its first word is a command of the engine, and the next ones are enough
for it. The keys of the hash table are of bytes up to `127`. -/
structure Message (E : Engine) (msg : List UInt8) : Prop extends Sendable msg where
  command : ∃ cmd ∈ E.commands, ∃ args, words space msg = cmd.name :: args ∧
    cmd.uses ≤ args.length + 1 ∧
      (E = .hash → 2 ≤ cmd.uses → ∀ k ∈ args.head?, ∀ b ∈ k.bytes, b < 128)

/-- The first words of the message are those of the request. -/
def Makes (E : Engine) (msg : List UInt8) (r : Request) : Prop :=
  E.family.words r <+: words space msg

section Requests

variable {E : Engine} {msg : List UInt8} {r : Request}

/-- A command with enough words makes a request. -/
theorem exists_makes {cmd : Cmd} {args : List CStr} (hcmd : cmd ∈ E.commands)
    (hwords : words space msg = cmd.name :: args) (huses : cmd.uses ≤ args.length + 1) :
    ∃ r, Makes E msg r := by
  have hfamily : (E.family.set.uses = 3 ∧ E.family.get.uses = 2 ∧ E.family.del.uses = 2 ∧
      E.family.mod.uses = 3) := by
    cases E <;> exact ⟨rfl, rfl, rfl, rfl⟩
  obtain ⟨hset, hget, hdel, hmod⟩ := hfamily
  have hone : 2 ≤ args.length + 1 → ∃ k extra, args = k :: extra := by
    intro hle
    cases args with
    | nil => simp at hle
    | cons k extra => exact ⟨k, extra, rfl⟩
  have htwo : 3 ≤ args.length + 1 → ∃ k v extra, args = k :: v :: extra := by
    intro hle
    obtain ⟨k, rest, rfl⟩ := hone (by omega)
    cases rest with
    | nil => simp at hle
    | cons v extra => exact ⟨k, v, extra, rfl⟩
  simp only [Engine.commands, List.mem_cons, List.not_mem_nil, or_false] at hcmd
  simp only [Makes, hwords]
  rcases hcmd with rfl | rfl | rfl | rfl | rfl
  · obtain ⟨k, v, extra, rfl⟩ := htwo (hset ▸ huses)
    exact ⟨.call (.set k v), extra, rfl⟩
  · obtain ⟨k, extra, rfl⟩ := hone (hget ▸ huses)
    exact ⟨.call (.get k), extra, rfl⟩
  · obtain ⟨k, extra, rfl⟩ := hone (hdel ▸ huses)
    exact ⟨.call (.delete k), extra, rfl⟩
  · obtain ⟨k, v, extra, rfl⟩ := htwo (hmod ▸ huses)
    exact ⟨.call (.modify k v), extra, rfl⟩
  · exact ⟨.count, args, rfl⟩

theorem Makes.words_eq (hr : Makes E msg r) :
    ∃ extra, words space msg = (E.family.cmd r).name :: (r.args ++ extra) := by
  obtain ⟨extra, hextra⟩ := hr
  exact ⟨extra, hextra.symm⟩

/-- A string that a reply has room for and that has no space in it. -/
def Plain (v : CStr) : Prop := space ∉ v.bytes ∧ v.strlen < bufferLength

theorem Sendable.plain {v : CStr} (h : Sendable msg) (hr : Makes E msg r) (hv : v ∈ r.args) :
    Plain v := by
  obtain ⟨extra, hwords⟩ := hr.words_eq
  obtain ⟨-, hspace, hpart⟩ := mem_words (show v ∈ words space msg by simp [hwords, hv])
  have hle := hpart.length_le
  rw [CStr.bytes_ofBytes h.noNul] at hle
  exact ⟨hspace, lt_of_le_of_lt hle h.short⟩

theorem Cmd.name_injective {a b : Cmd} (h : a.name = b.name) : a = b := by
  have hfind := findCommand_name a
  rw [h, findCommand_name] at hfind
  exact (Option.some.inj hfind).symm

theorem Message.ascii (h : Message E msg) (hr : Makes E msg r) (hE : E = .hash) :
    AsciiRequest r := by
  obtain ⟨extra, hextra⟩ := hr.words_eq
  obtain ⟨cmd, -, args, hwords, -, hascii⟩ := h.command
  rw [hwords, List.cons.injEq] at hextra
  obtain ⟨hname, rfl⟩ := hextra
  obtain rfl := Cmd.name_injective hname
  cases r with
  | count => trivial
  | call o =>
      have hkey : o.key ∈ (Request.call o).args := by
        cases o <;> simp [Request.args, Op.key]
      have hhead : o.key ∈ ((Request.call o).args ++ extra).head? := by
        cases o <;> rfl
      have huses : 2 ≤ (E.family.cmd (.call o)).uses := by
        subst hE
        cases o <;> simp [Engine.family, Protocol.hash, Family.cmd, Cmd.uses]
      have hlen := (h.toSendable.plain hr hkey).2
      rw [bufferLength] at hlen
      exact ⟨hascii hE huses _ hhead, by omega⟩

/-- Words behind those of the request, and old entries of the token array, do not matter. -/
theorem Makes.ok_serve_iff (h : Sendable msg) (hr : Makes E msg r) (alloc : AllocPlan)
    (stale : Tokens) (σ : Server) (Q : Buffer bufferLength → Server → Prop) :
    ∃ stale', (Ok (serve alloc (msg, stale)) σ Q ↔
      Ok (execute alloc (E.family.cmd r) (fill (E.family.words r) stale' 1)
        (fill (E.family.words r) stale' 2)) σ (fun m σ' => Q (printed (m, σ')).1 σ')) := by
  obtain ⟨extra, hwords⟩ := hr.words_eq
  have hlen : (r.args ++ extra).length < kvstoreMaxTokens := by
    have := h.fits
    rw [hwords, List.length_cons] at this
    omega
  refine ⟨fun i => ((r.args ++ extra)[i - 1]?).or (stale i), ?_⟩
  have hfill : ∀ i,
    fill (E.family.words r) (fun i => ((r.args ++ extra)[i - 1]?).or (stale i)) (i + 1)
      = ((r.args ++ extra)[i]?).or (stale (i + 1)) := by
    intro i
    show (r.args[i]?).or (((r.args ++ extra)[i]?).or (stale (i + 1))) = _
    by_cases hi : i < r.args.length
    · rw [List.getElem?_append_left hi, ← Option.or_assoc, Option.or_self]
    · rw [List.getElem?_eq_none (by omega), Option.none_or]
  rw [Protocol.ok_serve_iff h.short hwords hlen, hfill 0, hfill 1]

end Requests

/-! ## The request that bound a key last -/

/-- The map after a request. -/
def update (dup : Int) (m : KvMap) (r : Request) : KvMap := (answer dup m r).2

/-- The map after requests to an empty store. -/
def stored (dup : Int) (reqs : List Request) : KvMap := reqs.foldl (update dup) ∅

/-- In a store that holds `m` the request binds `k` to `v`: it inserts the key, or modifies it. -/
def Binds (m : KvMap) (k v : CStr) : Request → Prop
  | .call (.set k' v') => k' = k ∧ v' = v ∧ k ∉ m
  | .call (.modify k' v') => k' = k ∧ v' = v ∧ k ∈ m
  | _ => False

/-- The request neither deletes nor modifies `k`. -/
def Keeps (k : CStr) : Request → Prop
  | .call (.delete k') => k' ≠ k
  | .call (.modify k' _) => k' ≠ k
  | _ => True

/-- The last of the requests that bound `k` bound it to `v`, and it has not been deleted since. -/
def LastBinds (dup : Int) (reqs : List Request) (k v : CStr) : Prop :=
  ∃ before r later, reqs = before ++ r :: later ∧ Binds (stored dup before) k v r ∧
    ∀ r' ∈ later, Keeps k r'

section History

variable {dup : Int} {reqs : List Request} {k v : CStr} {r : Request}

theorem stored_concat : stored dup (reqs ++ [r]) = update dup (stored dup reqs) r := by
  rw [stored, List.foldl_append]
  rfl

theorem lastBinds_concat_iff : LastBinds dup (reqs ++ [r]) k v ↔
    Binds (stored dup reqs) k v r ∨ LastBinds dup reqs k v ∧ Keeps k r := by
  constructor
  · rintro ⟨before, r₀, later, heq, hbinds, hlater⟩
    rcases List.eq_nil_or_concat' later with rfl | ⟨later, r', rfl⟩
    · obtain ⟨rfl, hr⟩ := List.append_inj' heq rfl
      cases hr
      exact Or.inl hbinds
    · rw [← List.cons_append, ← List.append_assoc] at heq
      obtain ⟨rfl, hr⟩ := List.append_inj' heq rfl
      cases hr
      exact Or.inr ⟨⟨before, r₀, later, rfl, hbinds, fun r' hr' => hlater r' (by simp [hr'])⟩,
        hlater r (by simp)⟩
  · rintro (hbinds | ⟨⟨before, r₀, later, rfl, hbinds, hlater⟩, hr⟩)
    · exact ⟨reqs, r, [], rfl, hbinds, fun _ hr => absurd hr List.not_mem_nil⟩
    · refine ⟨before, r₀, later ++ [r], by simp, hbinds, fun r' hr' => ?_⟩
      rcases List.mem_append.mp hr' with hr' | hr'
      · exact hlater r' hr'
      · rwa [List.mem_singleton.mp hr']

/-- A request binds the key, or leaves its binding alone, or the key has none afterwards. -/
theorem lookup_update_iff (m : KvMap) :
    (update dup m r).lookup k = some v ↔ Binds m k v r ∨ m.lookup k = some v ∧ Keeps k r := by
  have hnone : k ∉ m → m.lookup k = none := Finmap.lookup_eq_none.mpr
  cases r with
  | count => simp [update, answer, Binds, Keeps]
  | call o =>
      cases o with
      | get k' => simp [update, answer, KvMap.step, Binds, Keeps]
      | set k' v' =>
          by_cases heq : k' = k
          · subst heq
            by_cases hk : k' ∈ m <;> simp [update, answer, KvMap.step, Binds, Keeps, hk, hnone]
          · by_cases hk : k' ∈ m <;>
              simp [update, answer, KvMap.step, Binds, Keeps, hk, heq, Ne.symm heq]
      | delete k' =>
          by_cases heq : k' = k
          · subst heq
            by_cases hk : k' ∈ m <;> simp [update, answer, KvMap.step, Binds, Keeps, hk, hnone]
          · by_cases hk : k' ∈ m <;>
              simp [update, answer, KvMap.step, Binds, Keeps, hk, heq, Ne.symm heq]
      | modify k' v' =>
          by_cases heq : k' = k
          · subst heq
            by_cases hk : k' ∈ m <;> simp [update, answer, KvMap.step, Binds, Keeps, hk, hnone]
          · by_cases hk : k' ∈ m <;>
              simp [update, answer, KvMap.step, Binds, Keeps, hk, heq, Ne.symm heq]

/-- **The stored values** are those of the last requests that bound their keys. -/
theorem lookup_stored_iff (reqs : List Request) :
    (stored dup reqs).lookup k = some v ↔ LastBinds dup reqs k v := by
  induction reqs using List.reverseRecOn with
  | nil =>
      refine iff_of_false (fun h => ?_) ?_
      · exact absurd (Finmap.mem_of_lookup_eq_some h) Finmap.notMem_empty
      · rintro ⟨before, r, later, heq, -⟩
        simp at heq
  | append_singleton reqs r ih =>
      rw [stored_concat, lookup_update_iff, ih, lastBinds_concat_iff]

/-- A bound value is a word of the request. -/
theorem Binds.mem_args {m : KvMap} (h : Binds m k v r) : v ∈ r.args := by
  cases r with
  | count => cases h
  | call o =>
      cases o with
      | get k' => cases h
      | delete k' => cases h
      | set k' v' =>
          obtain ⟨-, rfl, -⟩ := h
          simp [Request.args]
      | modify k' v' =>
          obtain ⟨-, rfl, -⟩ := h
          simp [Request.args]

end History

/-! ## Conversations -/

/-- The engine in front of a client: a new tree, or a hash table of `NULL` slots. -/
def Engine.Started : Engine → Server → Prop
  | .array, _ => False
  | .rbtree, σ => σ.tree = Rbtree.created
  | .hash, σ => Hash.NullTable Hash.maxTableSize σ.hash

/-- The code of a `set` of a key that is there. -/
def Engine.dup : Engine → Int
  | .hash => 1
  | _ => 0

/-- The engine holds the map `m`; what the tree counts does not matter here. -/
def Engine.Holds : Engine → Server → KvMap → Prop
  | .array, _, _ => False
  | .rbtree, σ, m => Rbtree.contents σ.tree = m ∧ ∃ T es, Rbtree.Intact σ.tree T es
  | .hash, σ, m => HashHolds σ m

section Conversations

variable {E : Engine} {σ : Server} {m : KvMap} {msg : List UInt8} {r : Request} {k v : CStr}

theorem Engine.Started.holds (h : E.Started σ) : E.Holds σ ∅ := by
  cases E with
  | array => exact h
  | rbtree =>
      have htree : σ.tree = Rbtree.created := h
      show Rbtree.contents σ.tree = ∅ ∧ ∃ T es, Rbtree.Intact σ.tree T es
      rw [htree]
      exact ⟨Rbtree.contents_created, _, _, Rbtree.intact_created⟩
  | hash => exact Hash.NullTable.represents h

theorem Engine.Holds.stored_iff (h : E.Holds σ m) : E.Stored σ k ↔ k ∈ m := by
  cases E with
  | array => exact absurd h id
  | rbtree => rw [Engine.Stored, h.1]
  | hash => rw [Engine.Stored, h.1]

/-- One request to the engine. -/
theorem Engine.Holds.ok_issue (h : E.Holds σ m) (hr : E = .hash → AsciiRequest r) (stale : Tokens) :
    Ok (E.family.issue (r, stale)) σ (fun text σ' =>
      (∀ o, r = .call o → text = some (reply o (m.step E.dup o).1)) ∧
        E.Holds σ' (update E.dup m r)) := by
  cases E with
  | array => exact absurd h id
  | rbtree =>
      obtain ⟨rfl, T, es, hs⟩ := h
      show Ok (Protocol.rbtree.issue (r, stale)) σ _
      cases r with
      | call o =>
          rw [ok_issue_rbtree]
          refine (hs.ok_step o).mono ?_
          rintro out t ⟨hstep, T', es', ht, -⟩
          obtain ⟨hout, hm⟩ := Prod.ext_iff.mp hstep
          refine ⟨fun o' ho' => ?_, hm, T', es', ht⟩
          cases ho'
          exact congrArg (fun out => some (reply o out)) hout
      | count =>
          rw [ok_issue_iff]
          show Ok (do return countReply (← kvstoreRbtreeCount)) σ _
          rw [ok_bind, kvstoreRbtreeCount, onTree, ok_zoom, Rbtree.kvsRbtreeCount, ok_bind,
            ok_readDesc, ok_pure, ok_pure]
          exact ⟨fun o ho => Request.noConfusion ho, rfl, T, es, hs⟩
  | hash =>
      have hhash : HashHolds σ m := h
      refine (hhash.ok_issue (hr rfl)).mono ?_
      rintro text σ' ⟨rfl, hσ'⟩
      refine ⟨fun o ho => ?_, hσ'⟩
      rw [ho]
      rfl

/-- One message to the engine. -/
theorem Engine.Holds.ok_serve (hσ : E.Holds σ m) (h : Message E msg) (hr : Makes E msg r)
    (stale : Tokens) :
    Ok (serve allOk (msg, stale)) σ (fun b σ' =>
      (∀ o, r = .call o → b = (Buffer.zero _).write (snprintf (reply o (m.step E.dup o).1)).bytes) ∧
        E.Holds σ' (update E.dup m r)) := by
  obtain ⟨stale', hiff⟩ := hr.ok_serve_iff h.toSendable allOk stale σ _
  refine hiff.mpr (((ok_issue_iff ..).mp (hσ.ok_issue (h.ascii hr) stale')).mono ?_)
  rintro text σ' ⟨hreply, hσ'⟩
  refine ⟨fun o ho => ?_, hσ'⟩
  rw [← Option.some.inj (hreply o ho)]
  rfl

/-- A conversation: the engine holds what the requests have stored, and every value is a word of a
message. -/
theorem Engine.Holds.ok_conversation {xs : List (List UInt8 × Tokens)} {reqs : List Request}
    (hxs : List.Forall₂ (fun x r => Message E x.1 ∧ Makes E x.1 r) xs reqs) (hσ : E.Holds σ m)
    (hplain : ∀ k v, m.lookup k = some v → Plain v) :
    Ok (runAll (serve allOk) xs) σ (fun _ σ' =>
      E.Holds σ' (reqs.foldl (update E.dup) m) ∧
        ∀ k v, (reqs.foldl (update E.dup) m).lookup k = some v → Plain v) := by
  induction hxs generalizing σ m with
  | nil => exact ⟨[], σ, rfl, hσ, hplain⟩
  | @cons x r xs reqs hx _ ih =>
      obtain ⟨hmsg, hr⟩ := hx
      obtain ⟨b, σ₁, hrun, -, hσ₁⟩ := hσ.ok_serve hmsg hr x.2
      have hplain₁ : ∀ k v, (update E.dup m r).lookup k = some v → Plain v := by
        intro k v hlookup
        rcases (lookup_update_iff m).mp hlookup with hbinds | ⟨hold, -⟩
        · exact hmsg.toSendable.plain hr hbinds.mem_args
        · exact hplain k v hold
      obtain ⟨bs, σ₂, hrest, hσ₂⟩ := ih hσ₁ hplain₁
      exact ⟨b :: bs, σ₂, runAll_cons_ok.mpr ⟨b, σ₁, bs, hrun, hrest, rfl⟩, hσ₂⟩

/-- The messages of a conversation with the requests they make. -/
theorem exists_requests {xs : List (List UInt8 × Tokens)} (hxs : ∀ x ∈ xs, Message E x.1) :
    ∃ reqs, List.Forall₂ (fun x r => Message E x.1 ∧ Makes E x.1 r) xs reqs := by
  induction xs with
  | nil => exact ⟨[], .nil⟩
  | cons x xs ih =>
      have hx := hxs x (by simp)
      obtain ⟨cmd, hcmd, args, hwords, huses, -⟩ := hx.command
      obtain ⟨r, hr⟩ := exists_makes hcmd hwords huses
      obtain ⟨reqs, hreqs⟩ := ih fun y hy => hxs y (List.mem_cons_of_mem _ hy)
      exact ⟨r :: reqs, .cons ⟨hx, hr⟩ hreqs⟩

theorem snprintf_of_short (h : v.strlen < bufferLength) : snprintf v = v := by
  have hlen : v.bytes.length ≤ bufferLength - 1 := Nat.le_sub_one_of_lt h
  exact CStr.ext_bytes (List.take_of_length_le hlen)

/-- The reply to a get, in an engine that holds plain values. -/
theorem Engine.Holds.ok_get (hσ : E.Holds σ m) (hplain : ∀ k v, m.lookup k = some v → Plain v)
    (h : Message E msg) (hr : Makes E msg (.call (.get k))) (stale : Tokens) :
    Ok (serve allOk (msg, stale)) σ (fun b _ => 0 ∈ b.bytes ∧
      (b.text = CStr.lit "NO EXIST" ↔ m.lookup k = none) ∧
        ∀ v, m.lookup k = some v → v.strlen < bufferLength ∧
          b.bytes = v.bytes ++ List.replicate (bufferLength - v.strlen) 0) := by
  refine (hσ.ok_serve h hr stale).mono ?_
  rintro b σ' ⟨hb, -⟩
  obtain rfl := hb _ rfl
  have hterm : ∀ text : CStr,
      0 ∈ ((Buffer.zero bufferLength).write (snprintf text).bytes).bytes := by
    intro text
    obtain ⟨rest, hrest⟩ := Buffer.zero_write_nul (snprintf_strlen text)
    simp [hrest]
  have htext : ∀ text : CStr, ((Buffer.zero bufferLength).write (snprintf text).bytes).text
      = snprintf text := fun text => Buffer.zero_write_text (snprintf_strlen text)
  refine ⟨hterm _, ?_, ?_⟩
  · rw [htext, KvMap.step, reply]
    cases hl : m.lookup k with
    | none => exact iff_of_true (by decide) rfl
    | some v =>
        obtain ⟨hspace, hlen⟩ := hplain k v hl
        have hgoes : snprintf (getReply (some v)) = v := by
          rw [getReply, snprintf_of_short hlen, snprintf_of_short hlen]
        rw [hgoes]
        refine iff_of_false ?_ (by simp)
        -- the text of a missing key has a space in it
        rintro rfl
        exact hspace (by decide)
  · intro v hl
    obtain ⟨-, hlen⟩ := hplain k v hl
    have hgoes : snprintf (reply (.get k) (m.step E.dup (.get k)).1) = v := by
      rw [KvMap.step, reply, hl, getReply, snprintf_of_short hlen, snprintf_of_short hlen]
    rw [hgoes]
    exact ⟨hlen, Buffer.zero_write_bytes hlen.le⟩

end Conversations

/-- **The round trip.** After any messages to a new tree, or to a hash table of `NULL` slots, the
keys that are stored are those that a message has bound and none has deleted since. The reply to a
get is the text `NO EXIST` exactly when the key is not stored, and otherwise the value in the
message that bound the key last, byte for byte and with a terminator behind it. -/
theorem serve_round_trip (E : Engine) (σ₀ : Server) (h₀ : E.Started σ₀)
    (xs : List (List UInt8 × Tokens)) (hxs : ∀ x ∈ xs, Message E x.1) :
    ∃ reqs, List.Forall₂ (fun x r => Makes E x.1 r) xs reqs ∧
      Ok (runAll (serve allOk) xs) σ₀ (fun _ σ =>
        (∀ k, E.Stored σ k ↔ ∃ v, LastBinds E.dup reqs k v) ∧
          ∀ (msg : List UInt8) (stale : Tokens) (k : CStr), Message E msg →
            Makes E msg (.call (.get k)) → Ok (serve allOk (msg, stale)) σ (fun b _ =>
              0 ∈ b.bytes ∧ (b.text = CStr.lit "NO EXIST" ↔ ¬E.Stored σ k) ∧
                ∀ v, LastBinds E.dup reqs k v → v.strlen < bufferLength ∧
                  b.bytes = v.bytes ++ List.replicate (bufferLength - v.strlen) 0)) := by
  obtain ⟨reqs, hreqs⟩ := exists_requests hxs
  have hempty : ∀ k v, (∅ : KvMap).lookup k = some v → Plain v := fun k v hl =>
    absurd (Finmap.mem_of_lookup_eq_some hl) Finmap.notMem_empty
  refine ⟨reqs, hreqs.imp fun _ _ h => h.2, (h₀.holds.ok_conversation hreqs hempty).mono ?_⟩
  rintro - σ ⟨hσ, hplain⟩
  have hlookup : ∀ k v, (reqs.foldl (update E.dup) ∅).lookup k = some v ↔
      LastBinds E.dup reqs k v :=
    fun k v => lookup_stored_iff reqs
  refine ⟨fun k => ?_, fun msg stale k hmsg hget => (hσ.ok_get hplain hmsg hget stale).mono ?_⟩
  · rw [hσ.stored_iff, Finmap.mem_iff]
    exact exists_congr (hlookup k)
  · rintro b - ⟨hterm, hnone, hsome⟩
    refine ⟨hterm, ?_, fun v hv => hsome v ((hlookup k v).mpr hv)⟩
    rw [hnone, hσ.stored_iff, Finmap.lookup_eq_none]

/-- After one message to a new tree a get of its key returns its value, whatever the token array
held before. -/
theorem round_trip_after_rset :
    Message .rbtree (CStr.lit "RSET k v").bytes ∧ Message .rbtree (CStr.lit "RGET k").bytes ∧
      Ok (runAll (serve allOk) [((CStr.lit "RSET k v").bytes, fun _ => none)]) started (fun _ σ =>
        ∀ stale, Ok (serve allOk ((CStr.lit "RGET k").bytes, stale)) σ (fun b _ =>
          b.bytes = (CStr.lit "v").bytes ++ List.replicate 511 0)) := by
  have hset : words space (CStr.lit "RSET k v").bytes
      = Cmd.rset.name :: [CStr.lit "k", CStr.lit "v"] := by decide
  have hget : words space (CStr.lit "RGET k").bytes = Cmd.rget.name :: [CStr.lit "k"] := by decide
  have hmsg : Message .rbtree (CStr.lit "RSET k v").bytes :=
    ⟨⟨by decide, CStr.nul_notMem _, by rw [hset]; decide⟩, .rset,
      by simp [Engine.commands, Engine.family, rbtree], _, hset, by decide,
      fun h => Engine.noConfusion h⟩
  have hmsg' : Message .rbtree (CStr.lit "RGET k").bytes :=
    ⟨⟨by decide, CStr.nul_notMem _, by rw [hget]; decide⟩, .rget,
      by simp [Engine.commands, Engine.family, rbtree], _, hget, by decide,
      fun h => Engine.noConfusion h⟩
  obtain ⟨reqs, hreqs, hok⟩ := serve_round_trip .rbtree started rfl
    [((CStr.lit "RSET k v").bytes, fun _ => none)] (by simpa using hmsg)
  obtain ⟨r, reqs', hr, hnil, rfl⟩ := List.forall₂_cons_left_iff.mp hreqs
  obtain rfl := List.forall₂_nil_left_iff.mp hnil
  -- the message makes no other request
  obtain rfl : r = .call (.set (CStr.lit "k") (CStr.lit "v")) := by
    rw [Makes, hset] at hr
    have hcmd := Cmd.name_injective (List.cons_prefix_cons.mp hr).1
    cases r with
    | count => cases hcmd
    | call o =>
        cases o with
        | get k => cases hcmd
        | delete k => cases hcmd
        | modify k v => cases hcmd
        | set k v =>
            obtain ⟨-, hk, hv⟩ := List.cons.inj (hr.eq_of_length rfl)
            rfl
  refine ⟨hmsg, hmsg', hok.mono ?_⟩
  rintro - σ ⟨-, hgets⟩ stale
  refine (hgets _ stale (CStr.lit "k") hmsg' ⟨[], hget.symm⟩).mono ?_
  rintro b - ⟨-, -, hvalue⟩
  exact (hvalue _ ⟨[], _, [], rfl, ⟨rfl, rfl, Finmap.notMem_empty⟩, by simp⟩).2

/-! ## Messages without an answer -/

/-- The command with these arguments prints an answer: the key of a command to the hash table hashes
to a slot, the table gets the memory it needs, and the value of a get is not the empty string. -/
def Answers (alloc : AllocPlan) (σ : Server) : Cmd → List CStr → Prop
  | .rget, k :: _ => ¬Rbtree.HasValue σ.tree k default
  | .hset, k :: _ => Hash.InRange Hash.maxTableSize k ∧
      (k ∉ Hash.contents Hash.maxTableSize σ.hash →
        alloc 0 = true ∧ alloc 1 = true ∧ alloc 2 = true)
  | .hget, k :: _ => Hash.InRange Hash.maxTableSize k ∧
      (Hash.contents Hash.maxTableSize σ.hash).lookup k ≠ some default
  | .hdel, k :: _ => Hash.InRange Hash.maxTableSize k
  | .hmod, k :: _ => Hash.InRange Hash.maxTableSize k ∧
      (k ∈ Hash.contents Hash.maxTableSize σ.hash → alloc 0 = true)
  | _, _ => True

section Answered

variable {alloc : AllocPlan} {σ : Server} {stale : Tokens} {msg : List UInt8}

theorem countReply_ne_default (n : Int) : countReply n ≠ default := by
  rw [countReply]
  split_ifs with hn
  · decide
  · -- the last digit is a character other than `NUL`
    have hdigit : ∀ d < 10, UInt8.ofNat (Nat.digitChar d).toNat ≠ 0 := by decide
    have hlast : Nat.digitChar (n.toNat % 10) ∈ (Nat.repr n.toNat).toList := by
      rw [Nat.toList_repr, Nat.toDigits_eq_if (by decide)]
      split_ifs with hlt
      · rw [Nat.mod_eq_of_lt hlt]
        simp
      · simp
    intro hempty
    have hmem : UInt8.ofNat (Nat.digitChar (n.toNat % 10)).toNat
        ∈ (CStr.lit (Nat.repr n.toNat)).bytes :=
      List.mem_filter.mpr ⟨List.mem_map_of_mem hlast, by
        simpa using hdigit _ (Nat.mod_lt _ (by decide))⟩
    rw [hempty] at hmem
    cases hmem

theorem snprintf_eq_default_iff (m : CStr) : snprintf m = default ↔ m = default := by
  constructor
  · intro h
    have hbytes : m.bytes.take (bufferLength - 1) = [] := congrArg CStr.bytes h
    rcases List.take_eq_nil_iff.mp hbytes with h0 | hnil
    · exact absurd h0 (by decide)
    · exact CStr.ext_bytes hnil
  · rintro rfl
    rfl

/-- Every reply but that to a get is a text of its own. -/
theorem reply_code_ne_default (o : Op) (r : Int) : reply o (.code r) ≠ default := by
  have hset : setReply r ≠ default := by
    rw [setReply]
    split_ifs <;> decide
  have hchange : changeReply r ≠ default := by
    rw [changeReply]
    split_ifs <;> decide
  cases o with
  | set k v => exact hset
  | get k => exact hchange
  | delete k => exact hchange
  | modify k v => exact hchange

theorem getReply_ne_default_iff (v : Option CStr) : getReply v ≠ default ↔ v ≠ some default := by
  cases v with
  | none => exact iff_of_true (by decide) (by simp)
  | some v => rw [getReply, ne_eq, snprintf_eq_default_iff, ne_eq, Option.some.injEq]

/-- When the tree has an answer. -/
theorem rbtree_answered_iff (hσ : Rbtree.Reachable σ.tree) (o : Op) (extra : List CStr) :
    Ok (rbtree.execute alloc o stale) σ (fun m _ => m ≠ default) ↔
      Answers alloc σ (rbtree.cmd (.call o)) ((Request.call o).args ++ extra) := by
  obtain ⟨T, es, h⟩ := hσ.holds
  rw [ok_execute_rbtree]
  -- a call that is not a get returns a code
  have hcode : (∀ k, o ≠ .get k) →
      Ok (Rbtree.call alloc o) σ.tree (fun out _ => reply o out ≠ default) := by
    intro hget
    obtain ⟨out, t, hrun, -⟩ := h.ok_call alloc o
    refine ⟨out, t, hrun, ?_⟩
    obtain ⟨r, rfl⟩ := Rbtree.code_of_run hget hrun
    exact reply_code_ne_default o r
  cases o with
  | get k =>
      obtain ⟨out, t, hrun, -, v, rfl, hv⟩ := h.ok_getCall alloc k
      show _ ↔ ¬Rbtree.HasValue σ.tree k default
      rw [ok_of_run hrun, h.hasValue_iff, ← hv]
      exact getReply_ne_default_iff v
  | set k v => exact iff_of_true (hcode (by simp)) trivial
  | delete k => exact iff_of_true (hcode (by simp)) trivial
  | modify k v => exact iff_of_true (hcode (by simp)) trivial

/-- When the hash table has an answer. -/
theorem hash_answered_iff (hσ : Hash.Reachable σ.hash) (o : Op) (extra : List CStr) :
    Ok (hash.execute alloc o stale) σ (fun m _ => m ≠ default) ↔
      Answers alloc σ (hash.cmd (.call o)) ((Request.call o).args ++ extra) := by
  obtain ⟨tab, h⟩ := hσ.holds
  rw [ok_execute_hash]
  -- a call returns when its key is in range and it gets its memory, and then as the map says
  have hiff : Ok (Hash.call alloc o) σ.hash (fun out _ => reply o out ≠ default) ↔
      Hash.InRange Hash.maxTableSize o.key ∧
        Hash.Supplied alloc (Hash.contents Hash.maxTableSize σ.hash) o ∧
          reply o ((Hash.contents Hash.maxTableSize σ.hash).step 1 o).1 ≠ default := by
    constructor
    · rintro ⟨out, s', hrun, hne⟩
      have hstep := congrArg Prod.fst (h.returns_call alloc o out s' hrun).1
      exact ⟨Hash.inRange_of_run hrun, h.supplied_of_run hrun, hstep ▸ hne⟩
    · rintro ⟨hr, ha, hne⟩
      refine (h.ok_call hr ha).mono ?_
      rintro out s' ⟨hstep, -⟩
      have hout : out = _ := congrArg Prod.fst hstep
      rw [hout]
      exact hne
  have hcode : ∀ m : KvMap, (∀ k, o ≠ .get k) → reply o (m.step 1 o).1 ≠ default := by
    intro m hget
    obtain ⟨r, hr⟩ := m.step_code 1 hget
    rw [hr]
    exact reply_code_ne_default o r
  rw [hiff]
  cases o with
  | get k =>
      show _ ∧ True ∧ getReply _ ≠ default ↔ _ ∧ _
      rw [getReply_ne_default_iff, true_and]
      exact Iff.rfl
  | set k v =>
      rw [and_iff_left (hcode _ (by simp))]
      exact Iff.rfl
  | delete k =>
      rw [and_iff_left (hcode _ (by simp))]
      exact and_iff_left trivial
  | modify k v =>
      rw [and_iff_left (hcode _ (by simp))]
      exact Iff.rfl

/-- A message without a word gets no reply: the write buffer stays as it was. -/
theorem serve_run_blank (h : Sendable msg) (hwords : words space msg = []) :
    (serve alloc (msg, stale)).run σ = .ok (Buffer.zero _, σ) := by
  have hinbox := (inbox_words (σ := σ) h.short).trans hwords
  obtain ⟨rbuffer, -, hrun⟩ := kvstoreRequest_run (inbox_nul (σ := σ) h.short)
    (by rw [hinbox]; exact Nat.zero_le _)
  rw [serve_run, outcome, hrun, hinbox, parserProtocol_nil]
  rfl

/-- The first word of a message that is no command is looked up behind the end of `commands`. -/
theorem serve_run_unknown {w : CStr} {args : List CStr} (h : Sendable msg)
    (hwords : words space msg = w :: args) (hw : findCommand w = none) :
    (serve alloc (msg, stale)).run σ = .error .outOfBounds := by
  have hinbox := (inbox_words (σ := σ) h.short).trans hwords
  obtain ⟨rbuffer, -, hrun⟩ := kvstoreRequest_run (inbox_nul (σ := σ) h.short)
    (by rw [hinbox, ← hwords]; exact h.fits)
  rw [serve_run, outcome, hrun, hinbox, parserProtocol_unknown alloc hw]
  rfl

/-- A reply is there to be read when the command has printed a text. -/
theorem printed_answer_iff (p : CStr × Server) :
    (printed p).1.text ≠ default ∧ 0 ∈ (printed p).1.bytes ↔ p.1 ≠ default := by
  rw [and_iff_left (printed_nul p), printed_text, ne_eq, snprintf_eq_default_iff]

/-- A command that is not for the array belongs to the tree or to the hash table. -/
theorem Cmd.exists_engine {cmd : Cmd} (h : cmd ∉ Engine.array.commands) :
    ∃ E : Engine, E ≠ .array ∧ cmd ∈ E.commands := by
  cases cmd with
  | set | get | del | mod | count => exact absurd (by decide) h
  | rset | rget | rdel | rmod | rcount => exact ⟨.rbtree, by decide, by decide⟩
  | hset | hget | hdel | hmod | hcount => exact ⟨.hash, by decide, by decide⟩

/-- The words of a message determine the command and its arguments. -/
theorem exists_words_iff {P : Cmd → List CStr → Prop} (cmd : Cmd) (args : List CStr) :
    (∃ cmd' args', cmd.name :: args = cmd'.name :: args' ∧ P cmd' args') ↔ P cmd args := by
  constructor
  · rintro ⟨cmd', args', heq, hP⟩
    obtain ⟨hname, rfl⟩ := List.cons.inj heq
    obtain rfl := Cmd.name_injective hname
    exact hP
  · intro hP
    exact ⟨cmd, args, rfl, hP⟩

end Answered

/-- **Which messages are answered.** In reachable states of the tree and the hash table, a message
that is not for the array, and has enough words if it starts with a command, leaves a non-empty
reply with a terminator in the write buffer, exactly when it starts with a command and `Answers`
holds. -/
theorem request_answered_iff (alloc : AllocPlan) (σ : Server) (htree : Rbtree.Reachable σ.tree)
    (hhash : Hash.Reachable σ.hash) (msg : List UInt8) (stale : Tokens) (hmsg : Sendable msg)
    (hcmd : ∀ cmd args, words space msg = cmd.name :: args →
      cmd ∉ Engine.array.commands ∧ cmd.uses ≤ args.length + 1) :
    Ok (serve alloc (msg, stale)) σ (fun b _ => b.text ≠ default ∧ 0 ∈ b.bytes) ↔
      ∃ cmd args, words space msg = cmd.name :: args ∧ Answers alloc σ cmd args := by
  cases hwords : words space msg with
  | nil =>
      rw [ok_of_run (serve_run_blank hmsg hwords)]
      refine iff_of_false (fun h => h.1 rfl) ?_
      rintro ⟨cmd, args, h, -⟩
      cases h
  | cons w args =>
      cases hfind : findCommand w with
      | none =>
          refine iff_of_false ?_ ?_
          · rintro ⟨b, σ', hrun, -⟩
            rw [serve_run_unknown hmsg hwords hfind] at hrun
            cases hrun
          · rintro ⟨cmd, args', h, -⟩
            obtain rfl := (List.cons.inj h).1
            rw [findCommand_name] at hfind
            cases hfind
      | some cmd =>
          obtain rfl := name_of_findCommand hfind
          obtain ⟨harray, huses⟩ := hcmd cmd args hwords
          obtain ⟨E, hE, hmem⟩ := Cmd.exists_engine harray
          obtain ⟨r, hr⟩ := exists_makes hmem hwords huses
          obtain ⟨extra, hextra⟩ := hr.words_eq
          rw [hwords, List.cons.injEq] at hextra
          obtain ⟨hname, rfl⟩ := hextra
          obtain rfl := Cmd.name_injective hname
          obtain ⟨stale', hiff⟩ := hr.ok_serve_iff hmsg alloc stale σ _
          rw [exists_words_iff, hiff]
          simp only [printed_answer_iff]
          cases r with
          | call o =>
              cases E with
              | array => exact absurd rfl hE
              | rbtree => exact rbtree_answered_iff htree o extra
              | hash => exact hash_answered_iff hhash o extra
          | count =>
              cases E with
              | array => exact absurd rfl hE
              | rbtree => exact iff_of_true ⟨_, _, rfl, countReply_ne_default _⟩ trivial
              | hash => exact iff_of_true ⟨_, _, rfl, countReply_ne_default _⟩ trivial

/-- A complete message to a new tree is answered. -/
theorem request_answered_rget :
    Ok (serve allOk ((CStr.lit "RGET k").bytes, fun _ => none)) started
      (fun b _ => b.text ≠ default ∧ 0 ∈ b.bytes) := by
  have hwords : words space (CStr.lit "RGET k").bytes = Cmd.rget.name :: [CStr.lit "k"] := by decide
  have hmsg : Sendable (CStr.lit "RGET k").bytes :=
    ⟨by decide, (CStr.lit "RGET k").nul_notMem, by rw [hwords]; decide⟩
  refine (request_answered_iff allOk started (Reach.refl ..) reachable_started.hash _ _ hmsg ?_).mpr
    ⟨.rget, _, hwords, ?_⟩
  · intro cmd args h
    rw [hwords] at h
    obtain ⟨hname, rfl⟩ := List.cons.inj h
    obtain rfl := Cmd.name_injective hname
    exact ⟨by decide, by decide⟩
  · show ¬Rbtree.HasValue Rbtree.created (CStr.lit "k") default
    rw [Rbtree.holds_created.hasValue_iff]
    simp

/-- A message of one space gets no reply, and a word that is no command stops the server. -/
theorem request_not_answered :
    started.Reachable ∧
    (Sendable [space] ∧ ¬Ok (serve allOk ([space], fun _ => none)) started
      (fun b _ => b.text ≠ default ∧ 0 ∈ b.bytes)) ∧
    (Sendable (CStr.lit "PING").bytes ∧
      (serve allOk ((CStr.lit "PING").bytes, fun _ => none)).run started
        = .error .outOfBounds) := by
  have hspace : Sendable [space] := ⟨by decide, by decide, by decide⟩
  have hping : Sendable (CStr.lit "PING").bytes :=
    ⟨by decide, (CStr.lit "PING").nul_notMem, by decide⟩
  have hwords : words space (CStr.lit "PING").bytes = [CStr.lit "PING"] := by decide
  refine ⟨reachable_started, ⟨hspace, ?_⟩, hping, serve_run_unknown hping hwords (by decide)⟩
  rw [ok_of_run (serve_run_blank hspace (by decide))]
  exact fun h => h.1 rfl

end KvStore.Protocol
