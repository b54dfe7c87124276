import KvStore.Protocol.Answers

set_option autoImplicit false

/-! # The two front ends

The event loop keeps one `conn_item` for a connection: `accept_cb` clears it, `recv_cb` writes every
message over the one before and does not clear what stands behind. The coroutine `server_reader` has
a new `conn_item` for every message.

They agree in a run in which no old text stands behind a message, no message without a word comes
after a reply, and a command that uses more words than the message has finds the same entries in the
token arrays of both (`front_ends_agree`).
-/

namespace KvStore.Protocol

open KvStore.Lib

/-! ## The model -/

/-- One message as it arrives at both front ends: its bytes, which of the allocations it causes
succeed, and what the token arrays of the two hold. -/
structure Delivery where
  msg : List UInt8
  nonempty : msg ≠ []
  short : msg.length < bufferLength
  alloc : AllocPlan
  staleEpoll : Tokens
  staleReader : Tokens

def Session.withRlen (n : Nat) (w : Session) : Session :=
  { w with item := { w.item with rlen := n } }

def Session.withWlen (n : Nat) (w : Session) : Session :=
  { w with item := { w.item with wlen := n } }

/-- `accept_cb`: the buffers and lengths of the connection are cleared. -/
def acceptCb (σ : Server) : Session := ⟨σ, ConnItem.zero⟩

/-- `recv_cb`, when `recv` returns the message. -/
def recvCb (x : Delivery) : Conn Nat := do
  modify (Session.recv x.msg)
  modify (Session.withRlen x.msg.length)
  let _ ← kvstoreRequest x.alloc x.staleEpoll
  match (← get).item.wbuffer.strlen with
  | .error e => throw e
  | .ok wlen => do
      modify (Session.withWlen wlen)
      return x.msg.length

/-- `send_cb`, with the bytes it sends. -/
def sendCb : Conn (List UInt8) := do
  let item := (← get).item
  return item.wbuffer.bytes.take item.wlen

/-- The event loop for one message. -/
def epollServe (x : Delivery) : Conn (List UInt8) := do
  let _ ← recvCb x
  sendCb

/-- One iteration of `server_reader`, with the bytes it sends. -/
def serverReader (x : Delivery) : Srv (List UInt8) := do
  let wbuffer ← serve x.alloc (x.msg, x.staleReader)
  match wbuffer.strlen with
  | .error e => throw e
  | .ok wlen => return wbuffer.bytes.take wlen

/-- The tokens `kvstore_split_token` finds in the read buffer. -/
def tokenList (w : Session) (stale : Tokens) : Except Fault (List (Option CStr)) :=
  (kvstoreSplitToken w.item.rbuffer.bytes stale).map fun p => (List.range p.1).map p.2.1

/-- The message finds nothing of the earlier ones. -/
structure Unmixed (w : Session) (x : Delivery) : Prop where
  /-- The text ends with the message, or spaces only follow it. -/
  behind : 0 ∈ x.msg ∨
    ∀ b ∈ (CStr.ofBytes (w.item.rbuffer.bytes.drop x.msg.length)).bytes, b = space
  /-- The message has a word, or there is no earlier reply. -/
  reply : (∃ b ∈ (CStr.ofBytes x.msg).bytes, b ≠ space) ∨ w.item.wbuffer.text = default
  /-- Entries that the command uses and the message does not fill are the same. -/
  entries : ∀ (cmd : Cmd) (args : List CStr), words space x.msg = cmd.name :: args →
    ∀ i, args.length < i → i < cmd.uses → x.staleEpoll i = x.staleReader i

/-! ## The buffers of the event loop -/

/-- The connection is cleared at first, and no message is long enough to reach its last byte. -/
structure Tidy (w : Session) : Prop where
  last : w.item.rbuffer.bytes[bufferLength - 1]? = some 0
  reply : 0 ∈ w.item.wbuffer.bytes

theorem tidy_acceptCb (σ : Server) : Tidy (acceptCb σ) := by
  have hzero : (List.replicate bufferLength (0 : UInt8))[bufferLength - 1]? = some 0 := by
    rw [List.getElem?_replicate, if_pos (by decide)]
  exact ⟨hzero, List.mem_of_getElem? hzero⟩

theorem getElem?_blanked {bs bs' : List UInt8} (h : List.Forall₂ Blanked bs bs') {i : Nat}
    (hi : bs[i]? = some 0) : bs'[i]? = some 0 := by
  induction h generalizing i with
  | nil => exact hi
  | cons hb _ ih =>
      cases i with
      | zero =>
          cases hi
          rcases hb with rfl | rfl <;> rfl
      | succ i => exact ih hi

section Step

variable {w : Session} {x : Delivery}

theorem Tidy.recv_last (h : Tidy w) (x : Delivery) :
    (Session.recv x.msg w).item.rbuffer.bytes[bufferLength - 1]? = some 0 := by
  have hlen := x.short
  have hpos : 0 < bufferLength := by decide
  show (w.item.rbuffer.write x.msg).bytes[bufferLength - 1]? = _
  rw [Buffer.write_getElem? _ (by omega) (by omega)]
  exact h.last

/-- The words of the message are those of the buffer. -/
theorem Unmixed.words_recv (h : Unmixed w x) :
    words space (Session.recv x.msg w).item.rbuffer.bytes = words space x.msg := by
  show words space (w.item.rbuffer.write x.msg).bytes = _
  rw [Buffer.write_bytes _ x.short.le]
  by_cases h0 : 0 ∈ x.msg
  · obtain ⟨text, after, heq, -⟩ := List.eq_append_cons_of_mem h0
    rw [heq, List.append_assoc, List.cons_append, words_append_nul, words_append_nul]
  · have hbehind := h.behind.resolve_left h0
    have htext : (CStr.ofBytes (x.msg ++ w.item.rbuffer.bytes.drop x.msg.length)).bytes
        = x.msg ++ (CStr.ofBytes (w.item.rbuffer.bytes.drop x.msg.length)).bytes := by
      rw [CStr.ofBytes_bytes, CStr.ofBytes_bytes, List.takeWhile_append_of_pos]
      intro b hb
      have hne : b ≠ 0 := fun hb0 => h0 (hb0 ▸ hb)
      simpa using hne
    rw [words, words, htext, pieces_append_delims _ hbehind, CStr.bytes_ofBytes h0]

theorem tokenList_eq (h0 : 0 ∈ w.item.rbuffer.bytes) (stale : Tokens) :
    tokenList w stale =
      if (words space w.item.rbuffer.bytes).length ≤ kvstoreMaxTokens then
        .ok ((words space w.item.rbuffer.bytes).map some)
      else .error .outOfBounds := by
  rw [tokenList]
  split_ifs with hlen
  · obtain ⟨bs', -, hsplit⟩ := (kvstoreSplitToken_spec h0).1 hlen
    rw [hsplit]
    refine congrArg Except.ok (List.ext_getElem (by simp) ?_)
    intro i h₁ h₂
    have hi : i < (words space w.item.rbuffer.bytes).length := by simpa using h₁
    simp [fill, hi]
  · rw [(kvstoreSplitToken_spec h0).2 (not_le.mp hlen)]
    rfl

/-- The dispatcher does the same in both front ends. -/
theorem Unmixed.parser_eq (h : Unmixed w x) :
    kvstoreParserProtocol x.alloc (fill (words space x.msg) x.staleEpoll) (words space x.msg).length
      = kvstoreParserProtocol x.alloc (fill (words space x.msg) x.staleReader)
          (words space x.msg).length := by
  cases hwords : words space x.msg with
  | nil => rw [parserProtocol_nil, parserProtocol_nil]
  | cons token args =>
      cases hfind : findCommand token with
      | none => rw [parserProtocol_unknown _ hfind, parserProtocol_unknown _ hfind]
      | some cmd =>
          obtain rfl := name_of_findCommand hfind
          have hentry : ∀ i, i + 1 < cmd.uses →
              args[i]?.or (x.staleEpoll (i + 1)) = args[i]?.or (x.staleReader (i + 1)) := by
            intro i hi
            by_cases hlt : i < args.length
            · rw [List.getElem?_eq_getElem hlt, Option.some_or, Option.some_or]
            · rw [h.entries cmd args hwords (i + 1) (by omega) hi]
          rw [parserProtocol_command, parserProtocol_command,
            execute_congr (fun huses => hentry 0 huses) (fun huses => hentry 1 huses)]

/-- A message without a word has spaces only in front of its terminator. -/
theorem words_eq_nil {bs : List UInt8} (h : words space bs = []) :
    ∀ b ∈ (CStr.ofBytes bs).bytes, b = space := by
  rcases text_cases space (CStr.ofBytes bs).bytes with hall | ⟨_, _, _, hdelims, hne, hd, htext⟩
  · exact hall
  · rw [words, pieces_cons hdelims hne hd htext] at h
    cases h

/-! ## One message -/

theorem epollServe_of_request {w₁ : Session} {r : Int}
    (hreq : (kvstoreRequest x.alloc x.staleEpoll).run
      ((Session.recv x.msg w).withRlen x.msg.length) = .ok (r, w₁))
    (h0 : 0 ∈ w₁.item.wbuffer.bytes) :
    (epollServe x).run w = .ok (w₁.item.wbuffer.text.bytes,
      w₁.withWlen w₁.item.wbuffer.text.strlen) := by
  have hrecv : (recvCb x).run w = .ok (x.msg.length, w₁.withWlen w₁.item.wbuffer.text.strlen) := by
    rw [recvCb, run_bind_ok (show (modify _ : Conn Unit).run w = _ from rfl),
      run_bind_ok (show (modify _ : Conn Unit).run (Session.recv x.msg w) = _ from rfl)]
    refine (run_bind_ok hreq).trans ?_
    rw [run_get_bind, Buffer.strlen, if_pos h0]
    rfl
  rw [epollServe, run_bind_ok hrecv]
  refine congrArg (fun bs => Except.ok (bs, w₁.withWlen w₁.item.wbuffer.text.strlen)) ?_
  exact Buffer.take_strlen w₁.item.wbuffer

theorem epollServe_of_error {e : Fault} (hreq : (kvstoreRequest x.alloc x.staleEpoll).run
      ((Session.recv x.msg w).withRlen x.msg.length) = .error e) :
    (epollServe x).run w = .error e := by
  have hrecv : (recvCb x).run w = .error e := by
    rw [recvCb, run_bind_ok (show (modify _ : Conn Unit).run w = _ from rfl),
      run_bind_ok (show (modify _ : Conn Unit).run (Session.recv x.msg w) = _ from rfl)]
    exact run_bind_error hreq
  rw [epollServe, run_bind_error hrecv]

theorem serverReader_of_request {σ : Server} {w₁ : Session} {r : Int}
    (hreq : (kvstoreRequest x.alloc x.staleReader).run (inbox σ x.msg) = .ok (r, w₁))
    (h0 : 0 ∈ w₁.item.wbuffer.bytes) :
    (serverReader x).run σ = .ok (w₁.item.wbuffer.text.bytes, w₁.server) := by
  have hserve : (serve x.alloc (x.msg, x.staleReader)).run σ
      = .ok (w₁.item.wbuffer, w₁.server) := by
    rw [serve_run, outcome, hreq]
    rfl
  rw [serverReader, run_bind_ok hserve, Buffer.strlen, if_pos h0, ← Buffer.take_strlen]
  rfl

theorem serverReader_of_error {σ : Server} {e : Fault}
    (hreq : (kvstoreRequest x.alloc x.staleReader).run (inbox σ x.msg) = .error e) :
    (serverReader x).run σ = .error e := by
  have hserve : (serve x.alloc (x.msg, x.staleReader)).run σ = .error e := by
    rw [serve_run, outcome, hreq]
    rfl
  rw [serverReader, run_bind_error hserve]

/-- The dispatcher leaves the write buffer alone only if there is no word. -/
theorem words_nil_of_silent {ws : List CStr} {alloc : AllocPlan} {stale : Tokens} {σ σ' : Server}
    (h : (kvstoreParserProtocol alloc (fill ws stale) ws.length).run σ = .ok (none, σ')) :
    ws = [] := by
  cases ws with
  | nil => rfl
  | cons token args =>
      cases hfind : findCommand token with
      | none =>
          rw [parserProtocol_unknown _ hfind] at h
          cases h
      | some cmd =>
          obtain rfl := name_of_findCommand hfind
          rw [parserProtocol_command] at h
          cases hexec : (execute alloc cmd (args[0]?.or (stale 1)) (args[1]?.or (stale 2))).run
            σ with
          | error e =>
              rw [run_bind_error hexec] at h
              cases h
          | ok p =>
              rw [run_bind_ok hexec] at h
              cases h

theorem respond_nul (h : 0 ∈ w.item.wbuffer.bytes) (reply : Option CStr) :
    0 ∈ (respond w reply).item.wbuffer.bytes := by
  cases reply with
  | none => exact h
  | some m => exact printed_nul (m, w.server)

/-- **One message**: both front ends go wrong in the same way, or they send the same bytes and have
the same engines afterwards. -/
theorem Tidy.serve_cases (h : Tidy w) (hx : Unmixed w x) :
    (∃ e, (epollServe x).run w = .error e ∧ (serverReader x).run w.server = .error e) ∨
      ∃ r w', (epollServe x).run w = .ok (r, w') ∧
        (serverReader x).run w.server = .ok (r, w'.server) ∧ Tidy w' := by
  have hlast : ((Session.recv x.msg w).withRlen x.msg.length).item.rbuffer.bytes[bufferLength - 1]?
      = some 0 := h.recv_last x
  have hnul := List.mem_of_getElem? hlast
  have hwords : words space ((Session.recv x.msg w).withRlen x.msg.length).item.rbuffer.bytes
      = words space x.msg := hx.words_recv
  have hinbox := inbox_words (σ := w.server) x.short
  have hinbox0 := inbox_nul (σ := w.server) x.short
  by_cases hlen : (words space x.msg).length ≤ kvstoreMaxTokens
  · obtain ⟨rbuffer, hblank, hreq⟩ := kvstoreRequest_run hnul (hwords ▸ hlen)
    obtain ⟨rbuffer', -, hreq'⟩ := kvstoreRequest_run hinbox0 (hinbox ▸ hlen)
    have hreq := hreq x.alloc x.staleEpoll
    have hreq' := hreq' x.alloc x.staleReader
    rw [hwords, hx.parser_eq] at hreq
    rw [hinbox] at hreq'
    change _ = Except.map _ ((kvstoreParserProtocol _ _ _).run w.server) at hreq
    change _ = Except.map _ ((kvstoreParserProtocol _ _ _).run w.server) at hreq'
    cases hcall : (kvstoreParserProtocol x.alloc (fill (words space x.msg) x.staleReader)
      (words space x.msg).length).run w.server with
    | error e =>
        rw [hcall] at hreq hreq'
        exact Or.inl ⟨e, epollServe_of_error hreq, serverReader_of_error hreq'⟩
    | ok p =>
        obtain ⟨reply, σ'⟩ := p
        rw [hcall] at hreq hreq'
        -- the write buffers before the reply
        have hmem : 0 ∈ (((Session.recv x.msg w).withRlen x.msg.length).withRbuffer
            rbuffer |>.withServer σ').item.wbuffer.bytes := h.reply
        have hmem' : 0 ∈ (((inbox w.server x.msg).withRbuffer rbuffer').withServer
            σ').item.wbuffer.bytes := (tidy_acceptCb w.server).reply
        have htext : (respond ((((Session.recv x.msg w).withRlen x.msg.length).withRbuffer
            rbuffer).withServer σ') reply).item.wbuffer.text
              = (respond (((inbox w.server x.msg).withRbuffer rbuffer').withServer σ')
                reply).item.wbuffer.text := by
          cases reply with
          | none =>
              have hblank := words_eq_nil (words_nil_of_silent hcall)
              have hnone : ¬∃ b ∈ (CStr.ofBytes x.msg).bytes, b ≠ space := by
                rintro ⟨b, hb, hne⟩
                exact hne (hblank b hb)
              exact (hx.reply.resolve_left hnone).trans (Buffer.zero_text _).symm
          | some m => rfl
        refine Or.inr ⟨_, _, epollServe_of_request hreq (respond_nul hmem reply), ?_, ?_⟩
        · rw [serverReader_of_request hreq' (respond_nul hmem' reply), ← htext]
          cases reply <;> rfl
        · refine ⟨?_, respond_nul hmem reply⟩
          have hrbuffer := getElem?_blanked hblank hlast
          cases reply <;> exact hrbuffer
  · have hover := not_le.mp hlen
    exact Or.inl ⟨.outOfBounds,
      epollServe_of_error (kvstoreRequest_overflow hnul (hwords ▸ hover) _ _),
      serverReader_of_error (kvstoreRequest_overflow hinbox0 (hinbox ▸ hover) _ _)⟩

end Step

/-! ## Runs -/

/-- **The front ends agree**: for messages that find nothing of the earlier ones in the connection,
the event loop and the coroutine find the same tokens, send the same bytes, and end with the same
engines, or both go wrong in the same way. -/
theorem front_ends_agree (σ : Server) (xs : List Delivery)
    (h : AllSteps epollServe Unmixed (acceptCb σ) xs) :
    ((runAll epollServe xs).run (acceptCb σ)).map (Prod.map id Session.server)
      = (runAll serverReader xs).run σ ∧
    AllSteps epollServe (fun w x => tokenList (Session.recv x.msg w) x.staleEpoll
      = tokenList (inbox w.server x.msg) x.staleReader) (acceptCb σ) xs := by
  have hinv : ∀ x w r w', Tidy w → Unmixed w x → (epollServe x).run w = .ok (r, w') → Tidy w' := by
    intro x w r w' hw hx hrun
    rcases hw.serve_cases hx with ⟨e, herr, -⟩ | ⟨r₁, w₁, hok, -, htidy⟩
    · rw [herr] at hrun
      cases hrun
    · rw [hok] at hrun
      cases hrun
      exact htidy
  constructor
  · refine runAll_lockstep Session.server ?_ hinv (tidy_acceptCb σ) h
    intro x w hw hx
    rcases hw.serve_cases hx with ⟨e, herr, herr'⟩ | ⟨r, w', hok, hok', -⟩
    · rw [herr, herr']
      rfl
    · rw [hok, hok']
      rfl
  · refine h.mono ?_ hinv (tidy_acceptCb σ)
    intro x w hw hx
    rw [tokenList_eq (List.mem_of_getElem? (hw.recv_last x)), tokenList_eq (inbox_nul x.short),
      hx.words_recv, inbox_words x.short]

/-- A message for token arrays with different entries. -/
def delivered (msg : List UInt8) (hne : msg ≠ []) (hshort : msg.length < bufferLength) : Delivery :=
  ⟨msg, hne, hshort, allOk, fun _ => none, fun _ => some (CStr.lit "old")⟩

/-- `SET k v` with its terminator. -/
def setTerminated : Delivery :=
  delivered ((CStr.lit "SET k v").bytes ++ [0]) (by decide) (by decide)

/-- `GET k` with its terminator. -/
def getTerminated : Delivery :=
  delivered ((CStr.lit "GET k").bytes ++ [0]) (by decide) (by decide)

/-- A complete message with its terminator finds nothing of the earlier ones. -/
theorem unmixed_of_complete {x : Delivery} {cmd : Cmd} {args : List CStr} (h0 : 0 ∈ x.msg)
    (hwords : words space x.msg = cmd.name :: args) (huses : cmd.uses ≤ args.length + 1)
    (w : Session) : Unmixed w x := by
  refine ⟨Or.inl h0, Or.inl ?_, ?_⟩
  · by_contra hnone
    push Not at hnone
    rw [words, pieces_of_delims hnone] at hwords
    cases hwords
  · intro cmd' args' hwords' i hlt hi
    obtain ⟨hname, rfl⟩ := List.cons.inj (hwords.symm.trans hwords')
    obtain rfl := Cmd.name_injective hname
    omega

/-- A client that sends the terminators of its messages. -/
theorem front_ends_agree_terminated :
    ((runAll epollServe [setTerminated, getTerminated]).run (acceptCb started)).map
        (Prod.map id Session.server)
      = (runAll serverReader [setTerminated, getTerminated]).run started := by
  have hset : words space setTerminated.msg
      = Cmd.set.name :: [CStr.lit "k", CStr.lit "v"] := by decide
  have hget : words space getTerminated.msg = Cmd.get.name :: [CStr.lit "k"] := by decide
  have hset' := unmixed_of_complete (by decide) hset (by decide)
  have hget' := unmixed_of_complete (by decide) hget (by decide)
  exact (front_ends_agree started [setTerminated, getTerminated]
    ⟨hset' _, fun _ _ _ => ⟨hget' _, fun _ _ _ => trivial⟩⟩).1

def setLonger : Delivery := delivered (CStr.lit "SET aa 1").bytes (by decide) (by decide)

def getShorter : Delivery := delivered (CStr.lit "GET a").bytes (by decide) (by decide)

/-- `GET a` behind `SET aa 1`: the event loop reads `GET aa`, as the last byte of the old key stands
behind the message. -/
theorem front_ends_differ :
    ((runAll epollServe [setLonger, getShorter]).run (acceptCb started)).map Prod.fst
      = .ok [(CStr.lit "SUCCESS").bytes, (CStr.lit "1").bytes] ∧
    ((runAll serverReader [setLonger, getShorter]).run started).map Prod.fst
      = .ok [(CStr.lit "SUCCESS").bytes, (CStr.lit "NO EXIST").bytes] := by
  constructor <;> decide +kernel

end KvStore.Protocol
