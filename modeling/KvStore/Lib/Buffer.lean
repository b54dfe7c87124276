import KvStore.Lib.CString
import KvStore.Lib.Exec
import Mathlib.Data.List.TakeWhile

set_option autoImplicit false

/-! # Buffers that hold C strings, and `strtok`

A buffer is a list of bytes. A C string in it ends at the first `0`; a function that looks for the
end and does not find it reads outside the buffer. `strtok d bs` is one call of the library function
with the one delimiter `d`, on the bytes `bs` behind the position it has saved; `words d bs` are the
words that calls of it cut out of the buffer, one after the other (`strtok_cases`).
-/

namespace KvStore.Lib

/-! ## Strings in a buffer -/

/-- The C string at the start of the bytes. -/
def CStr.ofBytes (bs : List UInt8) : CStr :=
  ⟨bs.takeWhile (· ≠ 0), fun h => by simpa using List.mem_takeWhile_imp h⟩

theorem CStr.ofBytes_bytes (bs : List UInt8) : (CStr.ofBytes bs).bytes = bs.takeWhile (· ≠ 0) := rfl

variable {bs xs : List UInt8} {d : UInt8}

/-- Bytes without a `0` are a string as a whole. -/
theorem CStr.bytes_ofBytes (h : 0 ∉ bs) : (CStr.ofBytes bs).bytes = bs := by
  rw [CStr.ofBytes_bytes, List.takeWhile_eq_self_iff]
  intro b hb
  have hne : b ≠ 0 := fun h0 => h (h0 ▸ hb)
  simpa using hne

theorem CStr.ofBytes_self (v : CStr) : CStr.ofBytes v.bytes = v :=
  CStr.ext_bytes (CStr.bytes_ofBytes v.nul_notMem)

/-- What stands behind a terminator does not matter. -/
theorem CStr.ofBytes_append_nul (as bs : List UInt8) :
    CStr.ofBytes (as ++ 0 :: bs) = CStr.ofBytes as := by
  refine CStr.ext_bytes ?_
  rw [CStr.ofBytes_bytes, CStr.ofBytes_bytes, List.takeWhile_append]
  split_ifs with hlen
  · rw [List.takeWhile_cons_of_neg (by simp), List.append_nil,
      (List.takeWhile_prefix _).eq_of_length hlen]
  · rfl

/-! ## Buffers of a fixed size -/

/-- `char buffer[n]` -/
structure Buffer (n : Nat) where
  bytes : List UInt8
  length_eq : bytes.length = n

namespace Buffer

variable {n : Nat}

/-- `memset(buffer, 0, n)` -/
def zero (n : Nat) : Buffer n := ⟨List.replicate n 0, List.length_replicate⟩

/-- Write bytes to the start of the buffer; it takes no more than its size. -/
def write (buf : Buffer n) (bs : List UInt8) : Buffer n :=
  ⟨(bs ++ buf.bytes.drop bs.length).take n, by
    have h := buf.length_eq
    simp only [List.length_take, List.length_append, List.length_drop]
    omega⟩

/-- The C string in the buffer. -/
def text (buf : Buffer n) : CStr := CStr.ofBytes buf.bytes

theorem write_bytes (buf : Buffer n) (h : bs.length ≤ n) :
    (buf.write bs).bytes = bs ++ buf.bytes.drop bs.length := by
  refine List.take_of_length_le ?_
  have hlen := buf.length_eq
  simp only [List.length_append, List.length_drop]
  omega

theorem zero_write_bytes (h : bs.length ≤ n) :
    ((zero n).write bs).bytes = bs ++ List.replicate (n - bs.length) 0 := by
  rw [write_bytes _ h]
  simp [zero]

/-- Bytes that leave room for a terminator have one behind them. -/
theorem zero_write_nul (h : bs.length < n) :
    ∃ rest, ((zero n).write bs).bytes = bs ++ 0 :: rest := by
  obtain ⟨m, hm⟩ : ∃ m, n - bs.length = m + 1 := ⟨n - bs.length - 1, by omega⟩
  exact ⟨List.replicate m 0, by rw [zero_write_bytes h.le, hm, List.replicate_succ]⟩

/-- A string that leaves room for its terminator can be read back. -/
theorem zero_write_text {v : CStr} (h : v.strlen < n) : ((zero n).write v.bytes).text = v := by
  obtain ⟨rest, hrest⟩ := zero_write_nul (show v.bytes.length < n from h)
  rw [text, hrest, CStr.ofBytes_append_nul, CStr.ofBytes_self]

theorem zero_text (n : Nat) : (zero n).text = default := by
  refine CStr.ext_bytes ?_
  rw [text, CStr.ofBytes_bytes, zero]
  cases n <;> rfl

/-- `strlen(buffer)` -/
def strlen (buf : Buffer n) : Except Fault Nat :=
  if 0 ∈ buf.bytes then .ok buf.text.strlen else .error .outOfBounds

theorem take_strlen (buf : Buffer n) : buf.bytes.take buf.text.strlen = buf.text.bytes :=
  (List.prefix_iff_eq_take.mp (List.takeWhile_prefix _)).symm

/-- A write does not reach the bytes behind what it writes. -/
theorem write_getElem? (buf : Buffer n) {i : Nat} (h : bs.length ≤ i)
    (hi : i < n) : (buf.write bs).bytes[i]? = buf.bytes[i]? := by
  rw [write_bytes _ (by omega), List.getElem?_append_right h, List.getElem?_drop]
  congr 1
  omega

end Buffer

/-! ## Words -/

/-- The pieces of a text between the delimiters, the empty ones left out. -/
def pieces (d : UInt8) (text : List UInt8) : List (List UInt8) :=
  (text.splitOnP (· == d)).filter (· ≠ [])

/-- The words of the string at the start of the bytes. -/
def words (d : UInt8) (bs : List UInt8) : List CStr :=
  (pieces d (CStr.ofBytes bs).bytes).map CStr.ofBytes

theorem words_append_nul (d : UInt8) (as bs : List UInt8) :
    words d (as ++ 0 :: bs) = words d as := by
  rw [words, CStr.ofBytes_append_nul, words]

theorem pieces_append_delim (d : UInt8) (xs ys : List UInt8) :
    pieces d (xs ++ d :: ys) = pieces d xs ++ pieces d ys := by
  rw [pieces, List.splitOnP_append_cons xs ys (by simp), List.filter_append]
  rfl

theorem pieces_delims (h : ∀ b ∈ xs, b = d) (ys : List UInt8) :
    pieces d (xs ++ ys) = pieces d ys := by
  induction xs with
  | nil => rfl
  | cons b xs ih =>
      have hb : b = d := h b (by simp)
      have hrest : ∀ b ∈ xs, b = d := fun b' hb' => h b' (List.mem_cons_of_mem _ hb')
      rw [hb, List.cons_append]
      exact (pieces_append_delim d [] (xs ++ ys)).trans (ih hrest)

theorem pieces_of_delims (h : ∀ b ∈ xs, b = d) : pieces d xs = [] := by
  rw [← List.append_nil xs, pieces_delims h]
  rfl

theorem pieces_single (hne : xs ≠ []) (h : d ∉ xs) : pieces d xs = [xs] := by
  have hall : ∀ b ∈ xs, (b == d) = false := by
    intro b hb
    have hbd : b ≠ d := fun hbd => h (hbd ▸ hb)
    simpa using hbd
  rw [pieces, List.splitOnP_eq_singleton hall]
  simp [hne]

theorem pieces_append_delims (xs : List UInt8) {ys : List UInt8} (h : ∀ b ∈ ys, b = d) :
    pieces d (xs ++ ys) = pieces d xs := by
  cases ys with
  | nil => rw [List.append_nil]
  | cons b ys =>
      have hrest : pieces d ys = [] :=
        pieces_of_delims fun b' hb' => h b' (List.mem_cons_of_mem _ hb')
      rw [h b (by simp), pieces_append_delim, hrest, List.append_nil]

/-- A text is delimiters only, or it starts with a word behind delimiters. -/
theorem text_cases (d : UInt8) (text : List UInt8) : (∀ b ∈ text, b = d) ∨
    ∃ delims token rest, (∀ b ∈ delims, b = d) ∧ token ≠ [] ∧ d ∉ token ∧
      (text = delims ++ token ∧ rest = [] ∨ text = delims ++ token ++ d :: rest) := by
  have hdelims : ∀ b ∈ text.takeWhile (· == d), b = d := by
    intro b hb
    simpa using List.mem_takeWhile_imp hb
  cases hstart : text.dropWhile (· == d) with
  | nil =>
      refine Or.inl fun b hb => hdelims b ?_
      have hsplit := List.takeWhile_append_dropWhile (p := (· == d)) (l := text)
      rw [hstart, List.append_nil] at hsplit
      rwa [hsplit]
  | cons b start =>
      have hb : b ≠ d := by
        have hhead := List.head?_dropWhile_not (· == d) text
        rw [hstart] at hhead
        simpa using hhead
      have hsplit := List.takeWhile_append_dropWhile (p := (· == d)) (l := text)
      rw [hstart] at hsplit
      refine Or.inr ⟨text.takeWhile (· == d), ?_⟩
      by_cases hd : d ∈ b :: start
      · obtain ⟨token, rest, heq, hnot⟩ := List.eq_append_cons_of_mem hd
        refine ⟨token, rest, hdelims, ?_, hnot, Or.inr ?_⟩
        · rintro rfl
          cases heq
          exact hb rfl
        · rw [List.append_assoc, ← heq, hsplit]
      · exact ⟨b :: start, [], hdelims, by simp, hd, Or.inl ⟨hsplit.symm, rfl⟩⟩

/-- The first word of a text, and the words behind it. -/
theorem pieces_cons {delims token rest text : List UInt8}
    (hdelims : ∀ b ∈ delims, b = d) (hne : token ≠ []) (hd : d ∉ token)
    (htext : text = delims ++ token ∧ rest = [] ∨ text = delims ++ token ++ d :: rest) :
    pieces d text = token :: pieces d rest := by
  rcases htext with ⟨rfl, rfl⟩ | rfl
  · rw [pieces_delims hdelims, pieces_single hne hd]
    rfl
  · rw [List.append_assoc, pieces_delims hdelims, pieces_append_delim, pieces_single hne hd]
    rfl

/-- A piece is not empty, has no delimiter in it, and is part of the text. -/
theorem mem_pieces {text p : List UInt8} (hp : p ∈ pieces d text) :
    p ≠ [] ∧ d ∉ p ∧ p <:+: text := by
  induction hn : text.length using Nat.strong_induction_on generalizing text with
  | _ n ih =>
      rcases text_cases d text with hall | ⟨delims, token, rest, hdelims, hne, hd, htext⟩
      · rw [pieces_of_delims hall] at hp
        cases hp
      · rw [pieces_cons hdelims hne hd htext] at hp
        have htok : token <:+: text := by
          rcases htext with ⟨rfl, -⟩ | rfl
          · exact (List.suffix_append delims token).isInfix
          · exact ⟨delims, d :: rest, rfl⟩
        rcases List.mem_cons.mp hp with rfl | hp
        · exact ⟨hne, hd, htok⟩
        · have hsuff : rest <:+ text := by
            rcases htext with ⟨-, rfl⟩ | rfl
            · exact List.nil_suffix
            · exact ⟨delims ++ token ++ [d], by simp⟩
          have hlt : rest.length < n := by
            have hpos : 0 < token.length := List.length_pos_iff.mpr hne
            rcases htext with ⟨rfl, rfl⟩ | rfl <;>
              simp only [List.length_append, List.length_cons, List.length_nil] at hn ⊢ <;> omega
          obtain ⟨h₁, h₂, h₃⟩ := ih rest.length hlt hp rfl
          exact ⟨h₁, h₂, h₃.trans hsuff.isInfix⟩

/-- A word is not empty, has no delimiter in it, and is part of the string. -/
theorem mem_words {w : CStr} (hw : w ∈ words d bs) :
    w.bytes ≠ [] ∧ d ∉ w.bytes ∧ w.bytes <:+: (CStr.ofBytes bs).bytes := by
  obtain ⟨p, hp, rfl⟩ := List.mem_map.mp hw
  obtain ⟨hne, hd, hpart⟩ := mem_pieces hp
  have hp0 : 0 ∉ p := fun h0 => (CStr.ofBytes bs).nul_notMem (hpart.subset h0)
  rw [CStr.bytes_ofBytes hp0]
  exact ⟨hne, hd, hpart⟩

/-! ## `strtok` -/

/-- The byte belongs to a word. -/
def inWord (d b : UInt8) : Bool := b ≠ 0 ∧ b ≠ d

/-- One call of `strtok` on the bytes behind the saved position: the token, the bytes the call has
passed as they are now, and the bytes behind the new position; `none` when there is no token
left. -/
def strtok (d : UInt8) (bs : List UInt8) : Except Fault (Option (CStr × List UInt8 × List UInt8)) :=
  let delims := bs.takeWhile (· == d)
  let start := bs.dropWhile (· == d)
  match start with
  | [] => .error .outOfBounds
  | b :: _ =>
      if b = 0 then .ok none
      else
        let token := start.takeWhile (inWord d)
        match start.dropWhile (inWord d) with
        | [] => .error .outOfBounds
        | c :: rest =>
            -- a delimiter is overwritten and passed, the terminator stays in front
            if c = 0 then .ok (some (CStr.ofBytes token, delims ++ token, c :: rest))
            else .ok (some (CStr.ofBytes token, delims ++ token ++ [0], rest))

section Strtok

variable {d : UInt8} {delims token rest : List UInt8}

/-- `takeWhile` and `dropWhile` stop where they should. -/
theorem span_stop {p : UInt8 → Bool} {c : UInt8} (hxs : ∀ b ∈ xs, p b = true)
    (hc : p c = false) (ys : List UInt8) :
    (xs ++ c :: ys).takeWhile p = xs ∧ (xs ++ c :: ys).dropWhile p = c :: ys := by
  rw [List.takeWhile_append_of_pos hxs, List.dropWhile_append_of_pos hxs]
  simp [hc]

theorem strtok_end (hd : d ≠ 0) (hdelims : ∀ b ∈ delims, b = d) :
    strtok d (delims ++ 0 :: rest) = .ok none := by
  have hall : ∀ b ∈ delims, (b == d) = true := fun b hb => by simpa using hdelims b hb
  have h0 : ((0 : UInt8) == d) = false := by simpa using hd.symm
  rw [strtok, (span_stop hall h0 rest).2]
  rfl

/-- The token of a call, and the byte `c` behind it. -/
theorem strtok_token {c : UInt8} (hdelims : ∀ b ∈ delims, b = d) (hne : token ≠ [])
    (htok : ∀ b ∈ token, inWord d b = true) (hc : inWord d c = false) :
    strtok d (delims ++ token ++ c :: rest) = .ok (some (CStr.ofBytes token,
      if c = 0 then (delims ++ token, c :: rest) else (delims ++ token ++ [0], rest))) := by
  obtain ⟨b, token', rfl⟩ := List.exists_cons_of_ne_nil hne
  have hall : ∀ b ∈ delims, (b == d) = true := fun b hb => by simpa using hdelims b hb
  have hb : b ≠ 0 ∧ b ≠ d := by simpa [inWord] using htok b (by simp)
  have hbd : (b == d) = false := by simpa using hb.2
  obtain ⟨htake, hdrop⟩ := span_stop hall hbd (token' ++ c :: rest)
  obtain ⟨htake', hdrop'⟩ := span_stop htok hc rest
  rw [List.append_assoc, List.cons_append, strtok, htake, hdrop]
  rw [List.cons_append] at htake' hdrop'
  dsimp only
  rw [if_neg hb.1, htake', hdrop']
  dsimp only
  split_ifs <;> rfl

/-- A byte of the buffer is unchanged, or overwritten with the terminator. -/
def Blanked (b b' : UInt8) : Prop := b' = b ∨ b' = 0

theorem blanked_refl (bs : List UInt8) : List.Forall₂ Blanked bs bs :=
  List.forall₂_same.mpr fun _ _ => Or.inl rfl

/-- **What a call of `strtok` does** in a buffer with a terminator: it returns the first word and
leaves the others, or there is none. -/
theorem strtok_cases (hd : d ≠ 0) (h : 0 ∈ bs) :
    (strtok d bs = .ok none ∧ words d bs = []) ∨
      ∃ token front done rest, strtok d bs = .ok (some (token, done, rest)) ∧
        words d bs = token :: words d rest ∧ bs = front ++ rest ∧ front ≠ [] ∧
          List.Forall₂ Blanked front done ∧ 0 ∈ rest := by
  obtain ⟨text, after, rfl, htext⟩ := List.eq_append_cons_of_mem h
  have hwords : words d (text ++ 0 :: after) = (pieces d text).map CStr.ofBytes := by
    rw [words, CStr.ofBytes_append_nul, CStr.bytes_ofBytes htext]
  rcases text_cases d text with hall | ⟨delims, token, rest, hdelims, hne, hdt, hcase⟩
  · refine Or.inl ⟨strtok_end hd hall, ?_⟩
    rw [hwords, pieces_of_delims hall]
    rfl
  · have hpieces := pieces_cons hdelims hne hdt hcase
    have htok : ∀ b ∈ token, inWord d b = true := by
      intro b hb
      have hb0 : b ≠ 0 := by
        rintro rfl
        refine htext ?_
        rcases hcase with ⟨rfl, -⟩ | rfl <;> simp [hb]
      have hbd : b ≠ d := fun heq => hdt (heq ▸ hb)
      simp [inWord, hb0, hbd]
    refine Or.inr ?_
    rcases hcase with ⟨rfl, rfl⟩ | rfl
    · -- the word ends at the terminator
      refine ⟨_, delims ++ token, _, _, strtok_token hdelims hne htok (by simp [inWord]),
        ?_, rfl, ?_, blanked_refl _, by simp⟩
      · rw [hwords, hpieces]
        simp [words, CStr.ofBytes]
      · simp [hne]
    · -- the delimiter behind the word becomes a terminator
      have hrest : 0 ∉ rest := fun h0 => htext (by simp [h0])
      have hcall : strtok d (delims ++ token ++ d :: (rest ++ 0 :: after)) = _ :=
        strtok_token hdelims hne htok (by simp [inWord])
      rw [if_neg hd] at hcall
      refine ⟨CStr.ofBytes token, delims ++ token ++ [d], delims ++ token ++ [0],
        rest ++ 0 :: after, ?_, ?_, ?_, by simp, ?_, by simp⟩
      · rw [← hcall]
        simp
      · rw [hwords, hpieces, List.map_cons, words, CStr.ofBytes_append_nul,
          CStr.bytes_ofBytes hrest]
      · simp
      · exact List.rel_append (blanked_refl _) (List.Forall₂.cons (Or.inr rfl) List.Forall₂.nil)

end Strtok

end KvStore.Lib
