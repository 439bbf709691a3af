import SimtMachine.Proofs.Assembly.Correctness
import SimtMachine.Proofs.Assembly.Numerals
import SimtMachine.Proofs.DataText.Layouts
import SimtMachine.Proofs.DataText.Literals

/-!
# Reading data files

Reading goes through the layout of a text from front to back: gaps only move it to later lines, and
each token gives a byte or stops it. So a text is read if and only if all its tokens are literals of
bytes, and otherwise the first other token is reported with the number of its line.
-/

namespace SimtMachine.DataText

open Assembly
open Literal (IsNumber IsPlusNumber read?_eq_some_iff)

variable {n : Nat} {c : Char} {cs g l r t w : List Char} {ls : List (List Char)} {b : UInt8}
  {bs : List UInt8} {e : Entry} {es es' : List Entry}

/-! ## Tokens of a line -/

theorem tokens_separator (hc : isSeparator c = true) (l : List Char) :
    tokens (c :: l) = tokens l := by
  simp [tokens, ne_semicolon_of_isSeparator hc, Text.split, hc]

theorem tokens_nil : tokens [] = [] := rfl

theorem tokens_comment (l : List Char) : tokens (';' :: l) = [] := rfl

theorem tokens_token (hw : IsToken w) (hl : EndsToken l) : tokens (w ++ l) = w :: tokens l := by
  have hsep : ∀ c ∈ w, isSeparator c = false := fun c hc ↦ isSeparator_of_isPlain (hw.2 c hc)
  have htake : (w ++ l).takeWhile (· ≠ ';') = w ++ l.takeWhile (· ≠ ';') :=
    List.takeWhile_append_of_pos fun c hc ↦ by
      simpa using ne_of_isPlain (hw.2 c hc) isPlain_semicolon
  have hne : (!w.isEmpty) = true := by simp [hw.1]
  rw [tokens, htake, tokens]
  cases l with
  | nil => simp [Text.split_eq_singleton hsep, hne, Text.split]
  | cons c l =>
    by_cases hs : c = ';'
    · simp [hs, Text.split_eq_singleton hsep, hne, Text.split]
    · have hc : isSeparator c = true := by simpa [isPlain, hs] using hl c rfl
      rw [List.takeWhile_cons_of_pos (by simpa using hs), Text.split_append_cons hc,
        Text.split_eq_singleton hsep]
      simp [Text.split, hc, hne]

/-! ## Reading from a place on -/

/-- Reads a text that begins on line number `n`. -/
def readFrom (n : Nat) (cs : List Char) : Except Error (List UInt8) :=
  readLines n (Text.split (· = '\n') cs)

/-- Reads a token, given with the number of its line. -/
def readToken (x : Nat × List Char) : Except Error UInt8 :=
  match byte? x.2 with
  | none => .error ⟨x.1, String.ofList x.2⟩
  | some b => .ok b

theorem readLines_of_tokens (h : tokens l = tokens t) (n : Nat) (ls : List (List Char)) :
    readLines n (l :: ls) = readLines n (t :: ls) := by
  rw [readLines, readLines, h]

theorem readLines_of_tokens_nil (h : tokens l = []) (n : Nat) (ls : List (List Char)) :
    readLines n (l :: ls) = readLines (n + 1) ls := by
  rw [readLines, h, readTokens]
  cases readLines (n + 1) ls <;> rfl

theorem readLines_token (hw : IsToken w) (hl : EndsToken l) (n : Nat) (ls : List (List Char)) :
    readLines n ((w ++ l) :: ls) = do
      let b ← readToken (n, w)
      let bs ← readLines n (l :: ls)
      return b :: bs := by
  rw [readLines, readLines, tokens_token hw hl, readTokens, readToken]
  cases byte? w with
  | none => rfl
  | some b =>
    cases readTokens n (tokens l) with
    | error => rfl
    | ok => cases readLines (n + 1) ls <;> rfl

theorem readFrom_newline (n : Nat) (cs : List Char) :
    readFrom n ('\n' :: cs) = readFrom (n + 1) cs := by
  simpa [readFrom, Text.split] using readLines_of_tokens_nil tokens_nil n _

theorem readFrom_separator (hc : isSeparator c = true) (hn : c ≠ '\n') (n : Nat)
    (cs : List Char) : readFrom n (c :: cs) = readFrom n cs := by
  obtain ⟨l, ls, hs, -, happend⟩ := Text.split_append (· = '\n') cs
  have hcs : Text.split (· = '\n') (c :: cs) = (c :: l) :: ls := happend [c] (by simpa using hn)
  rw [readFrom, readFrom, hcs, hs]
  exact readLines_of_tokens (tokens_separator hc l) n ls

/-- A comment without the end of its line is not cut. -/
theorem newline_notMem_comment (ht : '\n' ∉ t) : ∀ c ∈ ';' :: t, decide (c = '\n') = false := by
  rw [List.forall_mem_cons]
  exact ⟨rfl, fun c hc ↦ decide_eq_false fun h ↦ ht (h ▸ hc)⟩

theorem readFrom_comment (ht : '\n' ∉ t) (n : Nat) (cs : List Char) :
    readFrom n (';' :: (t ++ '\n' :: cs)) = readFrom (n + 1) cs := by
  rw [readFrom, ← List.cons_append, Text.split_append_cons (by rfl),
    Text.split_eq_singleton (newline_notMem_comment ht)]
  exact readLines_of_tokens_nil (tokens_comment t) n _

theorem readFrom_unended (ht : '\n' ∉ t) (n : Nat) : readFrom n (';' :: t) = .ok [] := by
  rw [readFrom, Text.split_eq_singleton (newline_notMem_comment ht),
    readLines_of_tokens_nil (tokens_comment t)]
  rfl

theorem readFrom_token (hw : IsToken w) (hcs : EndsToken cs) (n : Nat) :
    readFrom n (w ++ cs) = do
      let b ← readToken (n, w)
      let bs ← readFrom n cs
      return b :: bs := by
  obtain ⟨l, ls, hs, hl, happend⟩ := Text.split_append (· = '\n') cs
  have hline : ∀ c ∈ w, decide (c = '\n') = false := fun c hc ↦
    decide_eq_false (ne_of_isPlain (hw.2 c hc) isPlain_newline)
  rw [readFrom, happend w hline, readFrom, hs]
  exact readLines_token hw (fun c hc ↦ hcs c (hl c hc)) n ls

/-- A gap moves reading on by its line ends. -/
theorem readFrom_gap (hg : Gap g) (n : Nat) (cs : List Char) :
    readFrom n (g ++ cs) = readFrom (n + g.count '\n') cs := by
  induction hg generalizing n with
  | nil => rfl
  | @separator c g hc _ ih =>
    by_cases hn : c = '\n'
    · subst hn
      rw [List.cons_append, readFrom_newline, ih, List.count_cons_self, Nat.add_assoc,
        Nat.add_comm 1]
    · rw [List.cons_append, readFrom_separator hc hn, ih, List.count_cons_of_ne hn]
  | @comment t g ht _ ih =>
    have hcount : (';' :: (t ++ '\n' :: g)).count '\n' = g.count '\n' + 1 := by
      simp [List.count_eq_zero_of_not_mem ht]
    rw [List.cons_append, List.append_assoc, List.cons_append, readFrom_comment ht, ih, hcount,
      Nat.add_assoc, Nat.add_comm 1]

theorem readFrom_ending (hr : Ending r) (n : Nat) : readFrom n r = .ok [] := by
  induction hr generalizing n with
  | nil => rfl
  | @separator c r hc _ ih =>
    by_cases hn : c = '\n'
    · subst hn
      rw [readFrom_newline, ih]
    · rw [readFrom_separator hc hn, ih]
  | comment ht _ ih => rw [readFrom_comment ht, ih]
  | unended ht => exact readFrom_unended ht n

/-! ## Reading a layout -/

/-- The tokens with the numbers of their lines, where the first gap begins on line number `n`. -/
def located (n : Nat) : List Entry → List (Nat × List Char)
  | [] => []
  | e :: es => (n + e.gap.count '\n', e.token) :: located (n + e.gap.count '\n') es

theorem located_map_snd (n : Nat) (es : List Entry) :
    (located n es).map Prod.snd = es.map Entry.token := by
  induction es generalizing n with
  | nil => rfl
  | cons e es ih => rw [located, List.map_cons, ih, List.map_cons]

/-- Tokens hold no line ends, so all line ends of a text count. -/
theorem located_append (n : Nat) (es es' : List Entry) :
    located n (es ++ es') = located n es ++ located (n + (spread es).count '\n') es' := by
  induction es generalizing n with
  | nil => rfl
  | cons e es ih =>
    have hcount : (spread (e :: es)).count '\n' = e.gap.count '\n' + (spread es).count '\n' := by
      have ht := List.count_eq_zero_of_not_mem e.isToken.newline_notMem
      simp [spread, Entry.text, ht]
    rw [List.cons_append, located, ih, located, hcount, List.cons_append, Nat.add_assoc]

theorem readFrom_spread (ha : [] ∉ (es.map Entry.gap).tail) (hr : Ending r) (n : Nat) :
    readFrom n (spread es ++ r) = (located n es).mapM readToken := by
  induction es generalizing n with
  | nil => exact readFrom_ending hr n
  | cons e es ih =>
    rw [spread_cons_append, readFrom_gap e.isGap,
      readFrom_token e.isToken (endsToken_spread ha hr), ih (apart_of_notMem ha), located,
      List.mapM_cons]

theorem read_text (l : Layout) :
    read (String.ofList l.text) = (located 1 l.entries).mapM readToken := by
  rw [← readFrom_spread l.apart l.isEnding, read, String.toList_ofList]
  rfl

/-! ## Bytes -/

theorem byte?_eq_some_iff : byte? w = some b ↔ Literal.read? w = some b.toNat := by
  rw [byte?, Option.map_eq_some_iff]
  constructor
  · rintro ⟨v, hv, rfl⟩
    rw [Option.filter_eq_some_iff] at hv
    rw [hv.1, UInt8.toNat_ofNat_of_lt' (by simpa using hv.2)]
  · intro h
    exact ⟨b.toNat, Option.filter_eq_some_iff.2 ⟨h, by simpa using b.toNat_lt⟩, UInt8.ofNat_toNat⟩

theorem byte?_eq_none_iff : byte? w = none ↔ ∀ v, Literal.read? w = some v → 255 < v := by
  rw [byte?, Option.map_eq_none_iff, Option.filter_eq_none_iff]
  exact forall₂_congr fun v _ ↦ by simp; omega

theorem readToken_eq_ok_iff {x : Nat × List Char} : readToken x = .ok b ↔ byte? x.2 = some b := by
  unfold readToken
  split <;> simp [*]

theorem mapM_located_eq_ok_iff : (located n es).mapM readToken = .ok bs ↔
    List.Forall₂ (fun e b ↦ byte? e.token = some b) es bs := by
  rw [mapM_eq_ok_iff]
  simp only [readToken_eq_ok_iff]
  rw [← List.forall₂_map_left_iff (f := Prod.snd) (R := fun w b ↦ byte? w = some b),
    located_map_snd, List.forall₂_map_left_iff]

/-- Exactly the texts whose tokens are all literals of bytes are read, each token as its byte. -/
theorem read_text_eq_ok_iff (l : Layout) : read (String.ofList l.text) = .ok bs ↔
    List.Forall₂ (fun e b ↦ byte? e.token = some b) l.entries bs := by
  rw [read_text, mapM_located_eq_ok_iff]

/-- The first token that is no literal of a byte stops reading. -/
theorem mapM_located_eq_error (hes : List.Forall₂ (fun e b ↦ byte? e.token = some b) es bs)
    (he : byte? e.token = none) (n : Nat) (es' : List Entry) :
    (located n (es ++ e :: es')).mapM readToken =
      .error ⟨n + (spread es ++ e.gap).count '\n', String.ofList e.token⟩ := by
  have hstop : readToken (n + (spread es).count '\n' + e.gap.count '\n', e.token) =
      .error ⟨n + (spread es ++ e.gap).count '\n', String.ofList e.token⟩ := by
    rw [readToken, he, List.count_append, Nat.add_assoc]
  rw [located_append, List.mapM_append, mapM_located_eq_ok_iff.2 hes, located, List.mapM_cons,
    hstop]
  rfl

theorem exists_byte?_eq_some_iff : (∃ b, byte? w = some b) ↔
    ∃ v ≤ 255, IsNumber w v ∨ IsPlusNumber w v := by
  simp only [byte?_eq_some_iff, read?_eq_some_iff]
  constructor
  · rintro ⟨b, hb⟩
    exact ⟨b.toNat, Nat.le_of_lt_succ b.toNat_lt, hb⟩
  · rintro ⟨v, hv, hw⟩
    exact ⟨UInt8.ofNat v, by rwa [UInt8.toNat_ofNat_of_lt' (Nat.lt_succ_of_le hv)]⟩

/-- Exactly the texts whose tokens are all literals of at most 255 are read. -/
theorem exists_read_text_iff (l : Layout) : (∃ bs, read (String.ofList l.text) = .ok bs) ↔
    ∀ e ∈ l.entries, ∃ v ≤ 255, IsNumber e.token v ∨ IsPlusNumber e.token v := by
  simp only [read_text_eq_ok_iff, exists_forall₂_iff, exists_byte?_eq_some_iff]

/-- The two syntaxes of numbers differ in one thing: literals may have a plus sign before their
digits. So the reader of literals goes by the numbers of the assembly language unless there is one.
Data files are read if and only if each token of their one layout is a literal of at most 255, which
goes by those numbers unless such a token has a plus sign. -/
theorem accepts_iff_literals (s : List Char) (v : Nat) (text : String) :
    (number s = some (s, []) ↔ ∃ n, NumberText s n) ∧
    (Literal.read? s = some v ↔ IsNumber s v ∨ IsPlusNumber s v) ∧
    ((Literal.read? s = some v ↔ IsNumber s v) ↔ ¬IsPlusNumber s v) ∧
    ∃ l : Layout, (∀ l' : Layout, l'.text = text.toList ↔ l' = l) ∧
      ((∃ bs, read text = .ok bs) ↔
        ∀ e ∈ l.entries, ∃ v ≤ 255, IsNumber e.token v ∨ IsPlusNumber e.token v) ∧
      (((∃ bs, read text = .ok bs) ↔ ∀ e ∈ l.entries, ∃ v ≤ 255, IsNumber e.token v) ↔
        ((∃ bs, read text = .ok bs) → ∀ e ∈ l.entries, ∀ v, ¬IsPlusNumber e.token v)) := by
  have hnumber : number s = some (s, []) ↔ ∃ n, NumberText s n := by
    refine ⟨fun h ↦ (number_sound h).1, ?_⟩
    rintro ⟨n, hn⟩
    have hs : number (s ++ []) = some (s, []) := hn.number_append rfl
    rwa [List.append_nil] at hs
  have hliteral : (Literal.read? s = some v ↔ IsNumber s v) ↔ ¬IsPlusNumber s v := by
    rw [read?_eq_some_iff, or_iff_left_iff_imp]
    exact ⟨fun h hs ↦ hs.not_isNumber v (h hs), fun h hs ↦ absurd hs h⟩
  obtain ⟨l, hl⟩ := exists_layout text.toList
  have hread : (∃ bs, read text = .ok bs) ↔
      ∀ e ∈ l.entries, ∃ v ≤ 255, IsNumber e.token v ∨ IsPlusNumber e.token v := by
    rw [← exists_read_text_iff, hl, String.ofList_toList]
  refine ⟨hnumber, read?_eq_some_iff, hliteral, l, fun l' ↦ ?_, hread, ?_⟩
  · rw [← hl, Layout.text_injective.eq_iff]
  constructor
  · intro h hok e he v hplus
    obtain ⟨n, -, hn⟩ := h.1 hok e he
    exact hplus.not_isNumber n hn
  · refine fun hplus ↦ ⟨fun hok e he ↦ ?_, fun h ↦ hread.2 fun e he ↦ ?_⟩
    · obtain ⟨v, hv, hn⟩ := hread.1 hok e he
      exact ⟨v, hv, hn.resolve_right (hplus hok e he v)⟩
    · obtain ⟨v, hv, hn⟩ := h e he
      exact ⟨v, hv, .inl hn⟩

/-- A plus sign makes no number of the assembly language, but a literal of a data file. -/
theorem plus_five_is_read : (¬∃ n, NumberText "+5".toList n) ∧
    number "+5".toList ≠ some ("+5".toList, []) ∧ Literal.read? "+5".toList = some 5 ∧
    read "+5" = .ok [5] := by
  refine ⟨?_, by decide, by decide, rfl⟩
  rintro ⟨n, hn⟩
  obtain ⟨c, t, ht, hc⟩ := hn.exists_cons
  obtain ⟨rfl, -⟩ := List.cons.inj ht
  exact absurd hc (by decide)

/-! ## Writing -/

theorem isPlain_of_isHexDigit (hc : isHexDigit c = true) : isPlain c = true :=
  forall_hexDigit (p := fun c ↦ isPlain c = true) (by decide +kernel) hc

/-- Every number may stand as a token. -/
theorem isToken_of_numberText (h : NumberText t n) : IsToken t := by
  have hmarks : isPlain '0' = true ∧ isPlain 'x' = true ∧ isPlain 'b' = true := by decide
  cases h with
  | hexadecimal hne hds =>
    exact ⟨nofun, by simpa [hmarks] using fun c hc ↦ isPlain_of_isHexDigit (hds c hc)⟩
  | binary hne hds =>
    have hplain c (hc : isBinaryDigit c = true) : isPlain c = true :=
      isPlain_of_isHexDigit (isHexDigit_of_isDigit (isDigit_of_isBinaryDigit hc))
    exact ⟨nofun, by simpa [hmarks] using fun c hc ↦ hplain c (hds c hc)⟩
  | decimal hne hds =>
    exact ⟨hne, fun c hc ↦ isPlain_of_isHexDigit (isHexDigit_of_isDigit (hds c hc))⟩

theorem byte?_of_numberText (h : NumberText t b.toNat) : byte? t = some b :=
  byte?_eq_some_iff.2 (read?_eq_some_iff.2 (.inl ⟨b.toNat_lt.trans (by decide), h⟩))

def Entry.withToken (e : Entry) (w : List Char) (hw : IsToken w) : Entry :=
  { e with token := w, isToken := hw }

theorem map_gap_modify (es : List Entry) (i : Nat) (hw : IsToken w) :
    (es.modify i (·.withToken w hw)).map Entry.gap = es.map Entry.gap := by
  induction es generalizing i with
  | nil => simp
  | cons e es ih =>
    cases i with
    | zero => rfl
    | succ i => rw [List.modify_succ_cons, List.map_cons, ih, List.map_cons]

/-- The layout with another token at place `i`. -/
def Layout.replace (l : Layout) (i : Nat) (w : List Char) (hw : IsToken w) : Layout where
  entries := l.entries.modify i (·.withToken w hw)
  ending := l.ending
  apart := by
    rw [map_gap_modify]
    exact l.apart
  isEnding := l.isEnding

theorem Layout.entries_replace {l : Layout} {i : Nat} (hi : i < l.entries.length)
    (hw : IsToken w) : (l.replace i w hw).entries =
      l.entries.take i ++ l.entries[i].withToken w hw :: l.entries.drop (i + 1) :=
  List.modify_eq_take_cons_drop hi

/-- The text before the token at place `i`. -/
def Layout.before (l : Layout) (i : Nat) (hi : i < l.entries.length) : List Char :=
  spread (l.entries.take i) ++ l.entries[i].gap

/-- Bytes that are written as numbers in any layout are read back. With another token in the place
of one of them, reading fails there. -/
theorem read_written {l : Layout} {bs : List UInt8}
    (hbs : List.Forall₂ (fun e b ↦ NumberText e.token b.toNat) l.entries bs) :
    read (String.ofList l.text) = .ok bs ∧
    ∀ (i : Nat) (hi : i < l.entries.length) (w : List Char) (hw : IsToken w),
      (∀ v, Literal.read? w = some v → 255 < v) →
      ∃ e, read (String.ofList (l.replace i w hw).text) = .error e ∧
        e.line = 1 + (l.before i hi).count '\n' ∧ e.token = String.ofList w ∧
        e.message =
          "line " ++ toString e.line ++ ": `" ++ String.ofList w ++ "` is not a byte" := by
  have hbytes : List.Forall₂ (fun e b ↦ byte? e.token = some b) l.entries bs :=
    hbs.imp fun _ _ ↦ byte?_of_numberText
  refine ⟨(read_text_eq_ok_iff l).2 hbytes, fun i hi w hw hnone ↦ ?_⟩
  have hread : read (String.ofList (l.replace i w hw).text) =
      .error ⟨1 + (l.before i hi).count '\n', String.ofList w⟩ := by
    rw [read_text, Layout.entries_replace hi]
    exact mapM_located_eq_error (e := l.entries[i].withToken w hw) (List.forall₂_take i hbytes)
      (byte?_eq_none_iff.2 hnone) 1 _
  exact ⟨_, hread, rfl, rfl, rfl⟩

/-- Three bytes in the three bases, with comments, a blank line and a no-break space. -/
def mixedLayout : Layout where
  entries :=
    [⟨[';', '7', '\r', '\n'], '0' :: 'x' :: zeroPadded 16 20 255,
      .comment (t := ['7', '\r']) (by decide) .nil,
      isToken_of_numberText (numberText_zeroPadded 20 255).2.1⟩,
    ⟨[',', '\u00a0'], '0' :: 'b' :: zeroPadded 2 1 3, .separator rfl (.separator rfl .nil),
      isToken_of_numberText (numberText_zeroPadded 1 3).2.2⟩,
    ⟨[';', ',', '\n', '\n', '\t'], zeroPadded 10 0 7,
      .comment (t := [',']) (by decide) (.separator rfl (.separator rfl .nil)),
      isToken_of_numberText (numberText_zeroPadded 0 7).1⟩]
  ending := [' ', ';', '7']
  apart := by decide
  isEnding := .separator rfl (.unended (by decide))

theorem read_written_mixed :
    List.Forall₂ (fun e (b : UInt8) ↦ NumberText e.token b.toNat) mixedLayout.entries [255, 3, 7] ∧
    (IsToken ['0', 'x', '1', '0', '0'] ∧
      ∀ v, Literal.read? ['0', 'x', '1', '0', '0'] = some v → 255 < v) ∧
    read ";7\r\n0x00000000000000000000ff,\u00a00b011;,\n\n\t7 ;7" = .ok [255, 3, 7] ∧
    ∃ e, read ";7\r\n0x00000000000000000000ff,\u00a00b011;,\n\n\t0x100 ;7" = .error e ∧
      e.message = "line 4: `0x100` is not a byte" := by
  have hbs : List.Forall₂ (fun e (b : UInt8) ↦ NumberText e.token b.toNat) mixedLayout.entries
      [255, 3, 7] :=
    .cons (numberText_zeroPadded 20 255).2.1 (.cons (numberText_zeroPadded 1 3).2.2
      (.cons (numberText_zeroPadded 0 7).1 .nil))
  have hw : IsToken ['0', 'x', '1', '0', '0'] :=
    isToken_of_numberText (numberText_zeroPadded 0 256).2.1
  have hnone : ∀ v, Literal.read? ['0', 'x', '1', '0', '0'] = some v → 255 < v := by
    have h : Literal.read? ['0', 'x', '1', '0', '0'] = some 256 := by decide +kernel
    simp [h]
  obtain ⟨hread, herror⟩ := read_written hbs
  obtain ⟨e, he, hline, -, hmessage⟩ := herror 2 (by decide) _ hw hnone
  have hfour : 1 + (mixedLayout.before 2 (by decide)).count '\n' = 4 := by decide +kernel
  rw [hline, hfour] at hmessage
  have htext : String.ofList mixedLayout.text =
      ";7\r\n0x00000000000000000000ff,\u00a00b011;,\n\n\t7 ;7" := by decide +kernel
  have htext' : String.ofList (mixedLayout.replace 2 _ hw).text =
      ";7\r\n0x00000000000000000000ff,\u00a00b011;,\n\n\t0x100 ;7" := rfl
  rw [htext] at hread
  rw [htext'] at he
  exact ⟨hbs, ⟨hw, hnone⟩, hread, e, he, hmessage⟩

end SimtMachine.DataText
