import ShardStore.Proofs.TagSet
import ShardStore.Proofs.Utf8
import ShardStore.Store.Files
/-!
Reading a text file of entry blocks.

The text reader is a three-state machine over the lines of a text: `TAGS` opens a block, `VALUE`
closes its tag lines, `END` closes it, and every other line is data for the state it comes in
(a tag, a value line, or nothing outside a block). A keyword is data in the other states: `END`
among the tag lines is a tag, `TAGS` among the value lines is value text.

`Layout` says how a list of lines falls apart into skipped lines and complete blocks, ending
either with nothing or with one block left open. It does not mention the machine; `Layout.run`
shows that the machine reads every layout into the entries of its blocks and ends outside a block
exactly when none is left open, and `exists_layout` that every list of lines has a layout. The
text of a list of blocks, each line ended by a line feed, has those blocks as its only layout
when no line holds a line feed or ends in a carriage return, since then the line reader gives
the lines back unchanged (`lines_textOf`).
-/

namespace ShardStore

namespace Files

/-! ### Blocks -/

/-- A block of a text file: its tag lines and its value lines. -/
structure TextBlock where
  tags : List String
  values : List String
deriving DecidableEq, Repr

namespace TextBlock

/-- The lines that write a block. -/
def lines (b : TextBlock) : List String := "TAGS" :: b.tags ++ "VALUE" :: b.values ++ ["END"]

/-- A block reads back as it is written: no tag line ends the tags and no value line ends the
block. -/
def Readable (b : TextBlock) : Prop := "VALUE" ∉ b.tags ∧ "END" ∉ b.values

instance : DecidablePred Readable := fun _ => inferInstanceAs (Decidable (_ ∧ _))

/-- The entry a block stands for: the unassigned key, the set of its tag lines, and its value
lines each followed by a line feed. -/
def entry (b : TextBlock) : Entry :=
  ⟨Key.unassigned, TagSet.ofList b.tags, b.values.flatMap fun l => Bytes.ofString l ++ [10]⟩

/-- The tag set of a block's entry holds exactly its tag lines, in ascending order. -/
theorem mem_entry_tags (b : TextBlock) (t : String) : t ∈ b.entry.tags.toList ↔ t ∈ b.tags := by
  simp [entry, TagSet.ofList, TagSet.mem_foldl_insert, TagSet.empty]

end TextBlock

/-- How the reader takes a list of lines apart: lines outside a block that open none, complete
blocks, and at the end either nothing (`false`) or one block left open (`true`). -/
inductive Layout : List String → List TextBlock → Bool → Prop
  | nil : Layout [] [] false
  | skip {l : String} {ls bs o} : l ≠ "TAGS" → Layout ls bs o → Layout (l :: ls) bs o
  | block {b : TextBlock} {ls bs o} : b.Readable → Layout ls bs o →
      Layout (b.lines ++ ls) (b :: bs) o
  /-- A block cut off among its tag lines. -/
  | openTags {ts : List String} : "VALUE" ∉ ts → Layout ("TAGS" :: ts) [] true
  /-- A block cut off among its value lines. -/
  | openValue {ts vs : List String} : "VALUE" ∉ ts → "END" ∉ vs →
      Layout ("TAGS" :: ts ++ "VALUE" :: vs) [] true

/-- Every list of lines has a layout: after `TAGS`, the block runs to the first `VALUE` and then
to the first `END`, and is left open when either is missing. -/
theorem exists_layout : ∀ ls : List String, ∃ bs o, Layout ls bs o
  | [] => ⟨[], false, .nil⟩
  | l :: ls => by
    by_cases hl : l = "TAGS"
    · subst hl
      by_cases hv : "VALUE" ∈ ls
      · obtain ⟨ts, post, rfl, hts⟩ := List.eq_append_cons_of_mem hv
        by_cases he : "END" ∈ post
        · obtain ⟨vs, rest, rfl, hvs⟩ := List.eq_append_cons_of_mem he
          obtain ⟨bs, o, h⟩ := exists_layout rest
          refine ⟨⟨ts, vs⟩ :: bs, o, ?_⟩
          have hb := Layout.block (b := ⟨ts, vs⟩) ⟨hts, hvs⟩ h
          simpa [TextBlock.lines] using hb
        · exact ⟨[], true, .openValue hts he⟩
      · exact ⟨[], true, .openTags hv⟩
    · obtain ⟨bs, o, h⟩ := exists_layout ls
      exact ⟨bs, o, .skip hl h⟩
termination_by ls => ls.length
decreasing_by all_goals (subst_vars; simp only [List.length_cons, List.length_append]; omega)

/-! ### The machine on each part of a layout -/

/-- Outside a block, a line other than `TAGS` changes nothing. -/
theorem readLine_skip {l : String} (hl : l ≠ "TAGS") (c : Entry) (done : List Entry) :
    readLine ⟨.outside, c, done⟩ l = ⟨.outside, c, done⟩ := by
  simp [readLine, hl]

/-- Tag lines add their tags to the entry being read. -/
theorem foldl_readLine_tags {ts : List String} (hts : "VALUE" ∉ ts) (c : Entry)
    (done : List Entry) :
    ts.foldl readLine ⟨.tags, c, done⟩ =
      ⟨.tags, ⟨c.key, ts.foldl TagSet.insert c.tags, c.value⟩, done⟩ := by
  induction ts generalizing c with
  | nil => rfl
  | cons t ts ih =>
    have ht : t ≠ "VALUE" := fun h => hts (h ▸ List.mem_cons_self)
    rw [List.foldl_cons, List.foldl_cons]
    simp only [readLine, if_neg ht]
    exact ih (fun h => hts (List.mem_cons_of_mem _ h)) _

/-- Value lines add each line and a line feed to the value of the entry being read. -/
theorem foldl_readLine_values {vs : List String} (hvs : "END" ∉ vs) (c : Entry)
    (done : List Entry) :
    vs.foldl readLine ⟨.value, c, done⟩ =
      ⟨.value, ⟨c.key, c.tags, c.value ++ vs.flatMap fun l => Bytes.ofString l ++ [10]⟩, done⟩ := by
  induction vs generalizing c with
  | nil => simp
  | cons v vs ih =>
    have hv : v ≠ "END" := fun h => hvs (h ▸ List.mem_cons_self)
    rw [List.foldl_cons]
    simp only [readLine, if_neg hv]
    rw [ih (fun h => hvs (List.mem_cons_of_mem _ h))]
    simp [Entry.addToValue]

/-- A complete block adds its entry to those done. -/
theorem foldl_readLine_block {b : TextBlock} (hb : b.Readable) (done : List Entry) :
    b.lines.foldl readLine ⟨.outside, blank, done⟩ = ⟨.outside, blank, b.entry :: done⟩ := by
  obtain ⟨hts, hvs⟩ := hb
  have hopen : readLine ⟨.outside, blank, done⟩ "TAGS" = ⟨.tags, blank, done⟩ := by
    simp [readLine]
  simp only [TextBlock.lines, List.foldl_append, List.foldl_cons, List.foldl_nil, hopen,
    foldl_readLine_tags hts]
  simp [readLine, foldl_readLine_values hvs, TextBlock.entry, blank, TagSet.ofList]

/-- The machine reads a layout into the entries of its complete blocks, in order, and ends
outside a block exactly when no block is left open. -/
theorem Layout.run {ls : List String} {bs : List TextBlock} {o : Bool} (h : Layout ls bs o)
    (done : List Entry) :
    (ls.foldl readLine ⟨.outside, blank, done⟩).done = (bs.map TextBlock.entry).reverse ++ done ∧
      ((ls.foldl readLine ⟨.outside, blank, done⟩).block = .outside ↔ o = false) := by
  induction h generalizing done with
  | nil => simp
  | skip hl _ ih =>
    rw [List.foldl_cons, readLine_skip hl]
    exact ih done
  | block hb _ ih =>
    rw [List.foldl_append, foldl_readLine_block hb]
    obtain ⟨hdone, hblock⟩ := ih (_ :: done)
    exact ⟨by simp [hdone], hblock⟩
  | openTags hts =>
    simp [readLine, foldl_readLine_tags hts]
  | openValue hts hvs =>
    simp [readLine, List.foldl_append, foldl_readLine_tags hts, foldl_readLine_values hvs]

/-! ### The text of a list of blocks -/

/-- The text of a list of lines, each ended by a line feed. -/
def textOf (ls : List String) : String := String.ofList (ls.flatMap fun l => l.toList ++ ['\n'])

/-- The text of a list of blocks. -/
def render (bs : List TextBlock) : String := textOf (bs.flatMap TextBlock.lines)

/-- A line the line reader gives back as it is: no line feed in it, no carriage return at its
end. -/
def PlainLine (l : String) : Prop := '\n' ∉ l.toList ∧ l.toList.getLast? ≠ some '\r'

instance : DecidablePred PlainLine := fun _ => inferInstanceAs (Decidable (_ ∧ _))

/-- Splitting the text of plain lines at line feeds gives the lines and an empty rest. -/
theorem splitOn_textOf {ls : List String} (h : ∀ l ∈ ls, '\n' ∉ l.toList) :
    (textOf ls).toList.splitOn '\n' = ls.map String.toList ++ [[]] := by
  rw [textOf, String.toList_ofList]
  induction ls with
  | nil => rfl
  | cons l ls ih =>
    rw [List.flatMap_cons, List.append_assoc, List.singleton_append,
      List.splitOn_append_cons_self_of_not_mem (h l List.mem_cons_self),
      ih fun l' hl' => h l' (List.mem_cons_of_mem _ hl')]
    rfl

/-- The line reader gives back the lines of a text of plain lines. -/
theorem lines_textOf {ls : List String} (h : ∀ l ∈ ls, PlainLine l) : lines (textOf ls) = ls := by
  unfold lines
  rw [splitOn_textOf fun l hl => (h l hl).1]
  simp only [List.dropLast_concat, List.getLast?_concat, List.map_map]
  refine (List.map_congr_left fun l hl => ?_).trans (List.map_id ls)
  simp [(h l hl).2]

/-- The blocks of a list, written one after another, are its layout. -/
theorem layout_blocks {bs : List TextBlock} (h : ∀ b ∈ bs, b.Readable) :
    Layout (bs.flatMap TextBlock.lines) bs false := by
  induction bs with
  | nil => exact .nil
  | cons b bs ih =>
    exact .block (h b List.mem_cons_self) (ih fun b' hb' => h b' (List.mem_cons_of_mem _ hb'))

/-! ### Parsing a text -/

section Parse

variable (name s : String)

/-- A layout of a text's lines decides what parsing the text gives. -/
theorem parseText_of_layout {bs : List TextBlock} {o : Bool} (h : Layout (lines s) bs o) :
    parseText name (Bytes.ofString s) =
      if o then .error (.invalidDbFile
        s!"{name}: unterminated entry after {bs.length} complete entries")
      else .ok (bs.map TextBlock.entry) := by
  obtain ⟨hdone, hblock⟩ := h.run []
  rw [parseText, Bytes.utf8?_ofString]
  cases o with
  | false => simp [hblock.mpr rfl, hdone]
  | true =>
    have hopen : (List.foldl readLine ⟨.outside, blank, []⟩ (lines s)).block ≠ .outside :=
      fun hout => Bool.noConfusion (hblock.mp hout)
    simp [hopen, hdone]

/-- A text parses when its lines end no block open, into the entries of the complete blocks. -/
theorem parseText_eq_ok_iff (es : List Entry) :
    parseText name (Bytes.ofString s) = .ok es ↔
      ∃ bs, Layout (lines s) bs false ∧ es = bs.map TextBlock.entry := by
  obtain ⟨bs, o, h⟩ := exists_layout (lines s)
  constructor
  · intro hok
    rw [parseText_of_layout name s h] at hok
    cases o with
    | false =>
      simp only [Bool.false_eq_true, if_false, Except.ok.injEq] at hok
      exact ⟨bs, h, hok.symm⟩
    | true => simp at hok
  · rintro ⟨bs', h', rfl⟩
    simpa using parseText_of_layout name s h'

/-- A text fails to parse when its lines leave a block open, and the error counts the complete
blocks before it. -/
theorem parseText_eq_error_iff (f : Fault) :
    parseText name (Bytes.ofString s) = .error f ↔
      ∃ bs, Layout (lines s) bs true ∧
        f = .invalidDbFile s!"{name}: unterminated entry after {bs.length} complete entries" := by
  obtain ⟨bs, o, h⟩ := exists_layout (lines s)
  constructor
  · intro herr
    rw [parseText_of_layout name s h] at herr
    cases o with
    | false => simp at herr
    | true =>
      simp only [if_true, Except.error.injEq] at herr
      exact ⟨bs, h, herr.symm⟩
  · rintro ⟨bs', h', rfl⟩
    simpa using parseText_of_layout name s h'

end Parse

/-- Reading a text file of entry blocks. A UTF-8 text parses exactly when its lines, taken apart
into skipped lines and blocks, leave no block open, and then gives the entries of the blocks in
order; otherwise the error counts the complete blocks. Each entry carries the unassigned key, the
set of its block's tag lines, and its value lines each followed by a line feed. Blocks written out
as text, when no tag line is `VALUE`, no value line is `END`, and no line holds a line feed or ends
in a carriage return, parse back to their entries. -/
theorem text_parse_reads_blocks (name : String) :
    (∀ (s : String) (es : List Entry), parseText name (Bytes.ofString s) = .ok es ↔
      ∃ bs, Layout (lines s) bs false ∧ es = bs.map TextBlock.entry) ∧
    (∀ (s : String) (f : Fault), parseText name (Bytes.ofString s) = .error f ↔
      ∃ bs, Layout (lines s) bs true ∧
        f = .invalidDbFile s!"{name}: unterminated entry after {bs.length} complete entries") ∧
    (∀ b : TextBlock, b.entry.key = Key.unassigned ∧
      (∀ t, t ∈ b.entry.tags.toList ↔ t ∈ b.tags) ∧ b.entry.tags.Ascending ∧
      b.entry.value = b.values.flatMap fun l => Bytes.ofString l ++ [10]) ∧
    ∀ bs : List TextBlock, (∀ b ∈ bs, b.Readable ∧ ∀ l ∈ b.lines, PlainLine l) →
      parseText name (Bytes.ofString (render bs)) = .ok (bs.map TextBlock.entry) := by
  refine ⟨parseText_eq_ok_iff name, parseText_eq_error_iff name,
    fun b => ⟨rfl, b.mem_entry_tags, TagSet.ascending_ofList b.tags, rfl⟩, fun bs h => ?_⟩
  have hplain : ∀ l ∈ bs.flatMap TextBlock.lines, PlainLine l := by
    simp only [List.mem_flatMap]
    rintro l ⟨b, hb, hl⟩
    exact (h b hb).2 l hl
  rw [parseText_eq_ok_iff, render, lines_textOf hplain]
  exact ⟨bs, layout_blocks fun b hb => (h b hb).1, rfl⟩

/-- Keywords as data: a value line `TAGS` and a tag `END` read back as they were written. -/
theorem text_parse_reads_keyword_data :
    (∀ b ∈ [(⟨["BTC", "block"], ["price 1", "TAGS"]⟩ : TextBlock), ⟨["END"], []⟩],
      b.Readable ∧ ∀ l ∈ b.lines, PlainLine l) ∧
    parseText "db.txt"
        (Bytes.ofString (render [⟨["BTC", "block"], ["price 1", "TAGS"]⟩, ⟨["END"], []⟩])) =
      .ok ([⟨["BTC", "block"], ["price 1", "TAGS"]⟩, ⟨["END"], []⟩].map TextBlock.entry) :=
  ⟨by decide, (text_parse_reads_blocks "db.txt").2.2.2 _ (by decide)⟩

end Files

end ShardStore
