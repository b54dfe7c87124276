import KvStore.Protocol.Request

set_option autoImplicit false

/-! # The bounds of the tokenizer

`kvstore_split_token` looks for the end of the text in the read buffer, and stores every word in an
array of `KVSTORE_MAX_TOKENS` entries; it checks neither. `recv` may fill the whole buffer, so that
no terminator is left in it, and a message of 257 bytes can have 129 words (`split_outside`). The
tokenizer stays inside the buffer and inside the array if and only if neither is the case
(`split_inside_iff`). -/

namespace KvStore.Protocol

open KvStore.Lib

/-! ## Texts without a terminator -/

/-- Without a terminator, `strtok` leaves the buffer or finds a word, with less of the text behind
it. -/
theorem strtok_of_notMem {d : UInt8} {bs : List UInt8} (h0 : 0 ∉ bs) :
    strtok d bs = .error .outOfBounds ∨
      ∃ token done rest, strtok d bs = .ok (some (token, done, rest)) ∧ rest.length < bs.length ∧
        0 ∉ rest := by
  rw [strtok]
  have hsuffix : bs.dropWhile (· == d) <:+ bs := List.dropWhile_suffix _
  cases hstart : bs.dropWhile (· == d) with
  | nil => exact Or.inl rfl
  | cons b start =>
      rw [hstart] at hsuffix
      have hb : b ≠ 0 := fun hb => h0 (hsuffix.subset (hb ▸ List.mem_cons_self))
      have hsuffix' : (b :: start).dropWhile (inWord d) <:+ bs :=
        (List.dropWhile_suffix _).trans hsuffix
      dsimp only
      rw [if_neg hb]
      cases hend : (b :: start).dropWhile (inWord d) with
      | nil => exact Or.inl rfl
      | cons c rest =>
          rw [hend] at hsuffix'
          have hc : c ≠ 0 := fun hc => h0 (hsuffix'.subset (hc ▸ List.mem_cons_self))
          dsimp only
          rw [if_neg hc]
          refine Or.inr ⟨_, _, rest, rfl, ?_, fun hrest => ?_⟩
          · have hle := hsuffix'.length_le
            rw [List.length_cons] at hle
            omega
          · exact h0 (hsuffix'.subset (List.mem_cons_of_mem c hrest))

/-- The loop of the splitter leaves the buffer, or the array, when there is no terminator. -/
theorem splitLoop_of_notMem {n idx : Nat} {bs : List UInt8} (h0 : 0 ∉ bs) (hn : bs.length < n)
    (tokens : Tokens) : splitLoop n idx tokens bs = .error .outOfBounds := by
  induction n generalizing idx bs tokens with
  | zero => omega
  | succ n ih =>
      rcases strtok_of_notMem h0 with hcall | ⟨token, done, rest, hcall, hlen, hrest⟩
      · rw [splitLoop, hcall]
        rfl
      · rw [splitLoop, hcall]
        show (if idx < kvstoreMaxTokens then _ else _) = _
        split_ifs
        · rw [ih hrest (by omega)]
          rfl
        · rfl

/-! ## Messages in the read buffer -/

/-- What a message of at most 512 bytes leaves in the read buffer of a cleared connection. -/
theorem words_rbuffer {msg : List UInt8} (hlen : msg.length ≤ bufferLength)
    (hnul : 0 ∈ msg ∨ msg.length < bufferLength) :
    0 ∈ (ConnItem.zero.rbuffer.write msg).bytes ∧
      words space (ConnItem.zero.rbuffer.write msg).bytes = words space msg := by
  have hbytes : (ConnItem.zero.rbuffer.write msg).bytes
      = msg ++ List.replicate (bufferLength - msg.length) 0 :=
    Buffer.zero_write_bytes hlen
  rcases hnul with hmem | hlt
  · obtain ⟨text, after, rfl, -⟩ := List.eq_append_cons_of_mem hmem
    rw [hbytes, List.append_assoc, List.cons_append, words_append_nul, words_append_nul]
    exact ⟨by simp, rfl⟩
  · obtain ⟨rest, hrest⟩ := Buffer.zero_write_nul hlt
    rw [show ConnItem.zero.rbuffer = Buffer.zero bufferLength from rfl, hrest, words_append_nul]
    exact ⟨by simp, rfl⟩

/-- **When the tokenizer stays in bounds**: a terminator is left in the buffer, and the message has
no more words than the array has entries. -/
theorem split_inside_iff (msg : List UInt8) (hlen : msg.length ≤ bufferLength) (stale : Tokens) :
    kvstoreSplitToken (ConnItem.zero.rbuffer.write msg).bytes stale ≠ .error .outOfBounds ↔
      (0 ∈ msg ∨ msg.length < bufferLength) ∧ (words space msg).length ≤ kvstoreMaxTokens := by
  constructor
  · intro hinside
    have hnul : 0 ∈ msg ∨ msg.length < bufferLength := by
      by_contra hfull
      push Not at hfull
      refine hinside (splitLoop_of_notMem ?_ (Nat.lt_succ_self _) stale)
      rw [show ConnItem.zero.rbuffer = Buffer.zero bufferLength from rfl,
        Buffer.zero_write_bytes hlen, Nat.sub_eq_zero_of_le hfull.2, List.replicate_zero,
        List.append_nil]
      exact hfull.1
    obtain ⟨h0, hwords⟩ := words_rbuffer hlen hnul
    refine ⟨hnul, ?_⟩
    by_contra hmany
    exact hinside ((kvstoreSplitToken_spec h0).2 (by rw [hwords]; omega) stale)
  · rintro ⟨hnul, hfew⟩ herror
    obtain ⟨h0, hwords⟩ := words_rbuffer hlen hnul
    obtain ⟨bs', -, hsplit⟩ := (kvstoreSplitToken_spec h0).1 (by rw [hwords]; exact hfew)
    rw [hsplit stale] at herror
    cases herror

theorem split_inside_sample :
    (CStr.lit "SET a b").bytes.length ≤ bufferLength ∧
      kvstoreSplitToken (ConnItem.zero.rbuffer.write (CStr.lit "SET a b").bytes).bytes
        (fun _ => none) ≠ .error .outOfBounds :=
  ⟨by decide, (split_inside_iff _ (by decide) _).mpr (by decide)⟩

/-- `n` words of one letter, with spaces between them. -/
def letters (n : Nat) : List UInt8 := 97 :: (List.replicate (n - 1) [space, 97]).flatten

/-- A message of 129 words leaves the array, and one that fills the buffer leaves the buffer. -/
theorem split_outside :
    ((letters 129).length = 257 ∧
        fault (kvstoreSplitToken (ConnItem.zero.rbuffer.write (letters 129)).bytes fun _ => none) =
          some .outOfBounds) ∧
      fault (kvstoreSplitToken (ConnItem.zero.rbuffer.write (List.replicate 512 97)).bytes
        fun _ => none) = some .outOfBounds := by
  decide +kernel

end KvStore.Protocol
