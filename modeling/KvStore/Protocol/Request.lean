import KvStore.Lib.Buffer
import KvStore.Protocol.Runs

set_option autoImplicit false

/-! # Requests in the buffers of a connection

`kvstore_request` cuts the text in the read buffer of a connection into tokens and hands them to the
dispatcher, which prints its reply into the write buffer. The tokens are written to a local array
that is not initialised: behind them it holds whatever was there (`stale`).

The tokens are the words of the text (`kvstoreSplitToken_spec`), so a request is a call of the
dispatcher with these words (`kvstoreRequest_run`).
-/

namespace KvStore.Protocol

open KvStore.Lib

/-! ## The model -/

/-- `KVSTORE_MAX_TOKENS` -/
def kvstoreMaxTokens : Nat := 128

/-- The delimiter of the words of a message. -/
def space : UInt8 := 32

/-- `struct conn_item`, without the descriptor and the callbacks. -/
structure ConnItem where
  rbuffer : Buffer bufferLength
  rlen : Nat
  wbuffer : Buffer bufferLength
  wlen : Nat

/-- `struct conn_item item = {0}` -/
def ConnItem.zero : ConnItem := ⟨Buffer.zero _, 0, Buffer.zero _, 0⟩

/-- The engines and one connection. -/
structure Session where
  server : Server
  item : ConnItem

abbrev Conn (α : Type) := Exec Session α

def Session.withServer (σ : Server) (w : Session) : Session := { w with server := σ }

def Session.withRbuffer (b : Buffer bufferLength) (w : Session) : Session :=
  { w with item := { w.item with rbuffer := b } }

def Session.withWbuffer (b : Buffer bufferLength) (w : Session) : Session :=
  { w with item := { w.item with wbuffer := b } }

/-- `recv` writes a message to the start of the read buffer; what stands behind it stays. -/
def Session.recv (msg : List UInt8) (w : Session) : Session :=
  w.withRbuffer (w.item.rbuffer.write msg)

/-- A message in a connection that has just been cleared. -/
def inbox (σ : Server) (msg : List UInt8) : Session := Session.recv msg ⟨σ, ConnItem.zero⟩

/-- The loop of `kvstore_split_token` from the index `idx` on: the number of tokens, the array and
the bytes of the message, in which `strtok` has overwritten delimiters. -/
def splitLoop : Nat → Nat → Tokens → List UInt8 → Except Fault (Nat × Tokens × List UInt8)
  | 0, _, _, _ => .error .noFuel
  | n + 1, idx, tokens, bs => do
      match ← strtok space bs with
      | none => return (idx, tokens, bs)
      | some (token, done, rest) =>
          if idx < kvstoreMaxTokens then
            let (count, tokens', rest') ←
              splitLoop n (idx + 1) (Function.update tokens idx (some token)) rest
            return (count, tokens', done ++ rest')
          else
            throw .outOfBounds

/-- `kvstore_split_token` on the bytes from `msg` to the end of its buffer; every token takes a
byte, so there are no more calls of `strtok` than bytes and one. -/
def kvstoreSplitToken (msg : List UInt8) (tokens : Tokens) :
    Except Fault (Nat × Tokens × List UInt8) :=
  splitLoop (msg.length + 1) 0 tokens msg

/-- `kvstore_request`; `stale` is what the array `tokens` holds at first. -/
def kvstoreRequest (alloc : AllocPlan) (stale : Tokens) : Conn Int := do
  let rbuffer := (← get).item.rbuffer
  match kvstoreSplitToken rbuffer.bytes stale with
  | .error e => throw e
  | .ok (count, tokens, bytes) =>
      modify (Session.withRbuffer (rbuffer.write bytes))
      match ← zoom Session.server Session.withServer (kvstoreParserProtocol alloc tokens count) with
      | none => return 0
      | some msg =>
          -- `memset` of the write buffer, and `snprintf`
          modify (Session.withWbuffer ((Buffer.zero _).write (snprintf msg).bytes))
          return 0

/-! ## The tokens are the words -/

/-- The token array with the words `ws` from the index `idx` on. -/
def place (tokens : Tokens) (idx : Nat) (ws : List CStr) : Tokens :=
  fun i => if i < idx then tokens i else ws[i - idx]?.or (tokens i)

theorem place_cons (tokens : Tokens) (idx : Nat) (w : CStr) (ws : List CStr) :
    place (Function.update tokens idx (some w)) (idx + 1) ws = place tokens idx (w :: ws) := by
  funext i
  unfold place
  rcases Nat.lt_trichotomy i idx with h | rfl | h
  · simp [h, show i < idx + 1 by omega, Function.update_of_ne (show i ≠ idx by omega)]
  · simp
  · obtain ⟨j, rfl⟩ : ∃ j, i = idx + 1 + j := ⟨i - (idx + 1), by omega⟩
    have h₁ : idx + 1 + j - idx = j + 1 := by omega
    have h₂ : idx + 1 + j - (idx + 1) = j := by omega
    rw [if_neg (by omega), if_neg (by omega), h₁, h₂, Function.update_of_ne (by omega),
      List.getElem?_cons_succ]

theorem place_zero (tokens : Tokens) (ws : List CStr) : place tokens 0 ws = fill ws tokens := by
  funext i
  simp [place, fill]

/-- **The loop of the splitter** in a text with a terminator: it stores the words, if they fit into
the array. What it does to the text does not depend on the array. -/
theorem splitLoop_spec {n idx : Nat} {bs : List UInt8} (h0 : 0 ∈ bs) (hn : bs.length < n)
    (hidx : idx ≤ kvstoreMaxTokens) :
    (idx + (words space bs).length ≤ kvstoreMaxTokens → ∃ bs', List.Forall₂ Blanked bs bs' ∧
      ∀ tokens, splitLoop n idx tokens bs
        = .ok (idx + (words space bs).length, place tokens idx (words space bs), bs')) ∧
      (kvstoreMaxTokens < idx + (words space bs).length →
        ∀ tokens, splitLoop n idx tokens bs = .error .outOfBounds) := by
  induction n generalizing idx bs with
  | zero => omega
  | succ n ih =>
      rcases strtok_cases (show space ≠ 0 by decide) h0 with
        ⟨hcall, hwords⟩ | ⟨token, front, done, rest, hcall, hwords, rfl, hfront, hblank, hrest⟩
      · rw [hwords]
        refine ⟨fun _ => ⟨bs, blanked_refl bs, fun tokens => ?_⟩, fun hlt => ?_⟩
        · have hplace : place tokens idx [] = tokens := by
            funext i
            simp [place]
          rw [splitLoop, hcall, hplace]
          rfl
        · simp only [List.length_nil] at hlt
          omega
      · have hlen : rest.length < n := by
          have := List.length_pos_iff.mpr hfront
          rw [List.length_append] at hn
          omega
        -- one call of `strtok`, and the rest of the loop
        have hloop : ∀ tokens, splitLoop (n + 1) idx tokens (front ++ rest) =
            if idx < kvstoreMaxTokens then do
              let (count, tokens', rest') ←
                splitLoop n (idx + 1) (Function.update tokens idx (some token)) rest
              return (count, tokens', done ++ rest')
            else throw .outOfBounds := by
          intro tokens
          rw [splitLoop, hcall]
          rfl
        rw [hwords, List.length_cons]
        by_cases hlt : idx < kvstoreMaxTokens
        · obtain ⟨hfit, hover⟩ := ih hrest hlen hlt
          refine ⟨fun hle => ?_, fun hgt tokens => ?_⟩
          · obtain ⟨rest', hblank', hrec⟩ := hfit (by omega)
            refine ⟨done ++ rest', List.rel_append hblank hblank', fun tokens => ?_⟩
            rw [hloop, if_pos hlt, hrec, place_cons, Nat.add_right_comm idx 1]
            rfl
          · rw [hloop, if_pos hlt, hover (by omega)]
            rfl
        · refine ⟨fun hle => by omega, fun _ tokens => ?_⟩
          rw [hloop, if_neg hlt]
          rfl

/-- **What the splitter does** in a text with a terminator. -/
theorem kvstoreSplitToken_spec {bs : List UInt8} (h0 : 0 ∈ bs) :
    ((words space bs).length ≤ kvstoreMaxTokens → ∃ bs', List.Forall₂ Blanked bs bs' ∧
      ∀ stale, kvstoreSplitToken bs stale
        = .ok ((words space bs).length, fill (words space bs) stale, bs')) ∧
      (kvstoreMaxTokens < (words space bs).length →
        ∀ stale, kvstoreSplitToken bs stale = .error .outOfBounds) := by
  have hspec := splitLoop_spec h0 (Nat.lt_succ_self bs.length) (Nat.zero_le kvstoreMaxTokens)
  simp only [Nat.zero_add, place_zero] at hspec
  exact hspec

/-! ## A request is a call of the dispatcher -/

section Inbox

variable {σ : Server} {msg : List UInt8} (h : msg.length < bufferLength)
include h

theorem inbox_nul : 0 ∈ (inbox σ msg).item.rbuffer.bytes := by
  obtain ⟨rest, hrest⟩ := Buffer.zero_write_nul h
  show 0 ∈ ((Buffer.zero bufferLength).write msg).bytes
  rw [hrest]
  simp

theorem inbox_words : words space (inbox σ msg).item.rbuffer.bytes = words space msg := by
  obtain ⟨rest, hrest⟩ := Buffer.zero_write_nul h
  show words space ((Buffer.zero bufferLength).write msg).bytes = _
  rw [hrest, words_append_nul]

end Inbox

/-- The connection after the dispatcher has printed its reply, or has returned at once. -/
def respond (w : Session) : Option CStr → Session
  | none => w
  | some msg => w.withWbuffer ((Buffer.zero _).write (snprintf msg).bytes)

/-- **A request** whose words fit into the token array is a call of the dispatcher with them. -/
theorem kvstoreRequest_run {w : Session} (h0 : 0 ∈ w.item.rbuffer.bytes)
    (hlen : (words space w.item.rbuffer.bytes).length ≤ kvstoreMaxTokens) :
    ∃ rbuffer : Buffer bufferLength, List.Forall₂ Blanked w.item.rbuffer.bytes rbuffer.bytes ∧
      ∀ alloc stale, (kvstoreRequest alloc stale).run w =
        ((kvstoreParserProtocol alloc (fill (words space w.item.rbuffer.bytes) stale)
          (words space w.item.rbuffer.bytes).length).run w.server).map fun p =>
            (0, respond ((w.withRbuffer rbuffer).withServer p.2) p.1) := by
  obtain ⟨bs', hblank, hsplit⟩ := (kvstoreSplitToken_spec h0).1 hlen
  have hsize : bs'.length = bufferLength := by rw [← hblank.length_eq, w.item.rbuffer.length_eq]
  have hbytes : (w.item.rbuffer.write bs').bytes = bs' := by
    rw [Buffer.write_bytes _ hsize.le, List.drop_eq_nil_of_le, List.append_nil]
    rw [w.item.rbuffer.length_eq, hsize]
  refine ⟨w.item.rbuffer.write bs', by rwa [hbytes], fun alloc stale => ?_⟩
  rw [kvstoreRequest, run_get_bind]
  dsimp only
  rw [hsplit]
  dsimp only
  rw [run_bind_ok (show (modify _ : Conn Unit).run w = _ from rfl)]
  have hcall := run_zoom Session.server Session.withServer (kvstoreParserProtocol alloc
    (fill (words space w.item.rbuffer.bytes) stale) (words space w.item.rbuffer.bytes).length)
      (w.withRbuffer (w.item.rbuffer.write bs'))
  change (StateT.run _ (w.withRbuffer (w.item.rbuffer.write bs'))) = _
  change _ = ((kvstoreParserProtocol _ _ _).run w.server).map _ at hcall
  cases hd : (kvstoreParserProtocol alloc (fill (words space w.item.rbuffer.bytes) stale)
    (words space w.item.rbuffer.bytes).length).run w.server with
  | error e =>
      rw [hd] at hcall
      rw [run_bind_error hcall]
      rfl
  | ok p =>
      obtain ⟨msg, σ'⟩ := p
      rw [hd] at hcall
      rw [run_bind_ok hcall]
      cases msg <;> rfl

/-- A request with more words than the token array has entries. -/
theorem kvstoreRequest_overflow {w : Session} (h0 : 0 ∈ w.item.rbuffer.bytes)
    (hlen : kvstoreMaxTokens < (words space w.item.rbuffer.bytes).length) (alloc : AllocPlan)
    (stale : Tokens) : (kvstoreRequest alloc stale).run w = .error .outOfBounds := by
  rw [kvstoreRequest, run_get_bind]
  dsimp only
  rw [(kvstoreSplitToken_spec h0).2 hlen]
  rfl

end KvStore.Protocol
