import Playbook.Proofs.Token.Layout
import Playbook.Proofs.Token.Scanning

/-!
# Edits of the layout

`LayoutEdit` is a change of a source that is meant to be invisible: a further line of layout,
further blanks at the start or the end of a line, or a comment behind a line.  A line that is edited
scans into the same pieces, up to the layout before the first one (`Resembles`), and so the tokens
of the edited source are those of the source in another layout (`LayoutEdit.exists_scan`).

The first line is an exception to the rule that a line without lexemes leaves no token: its break is
always one.  A line in front of it may therefore add a break before all tokens, and a line behind
the last one may add a break after them.
-/

namespace Playbook

namespace Text

/-- A text of blanks, and a comment that may follow them. -/
inductive IsLayout : List Char → Prop
  | blanks {margin : List Char} (h : ∀ c ∈ margin, isBlank c = true) : IsLayout margin
  | comment {margin : List Char} (h : ∀ c ∈ margin, isBlank c = true) (text : List Char) :
      IsLayout (margin ++ '/' :: '/' :: text)

/-- A line gets blanks at its start or its end, or a comment behind at least one blank. -/
inductive Pads (line : List Char) : List Char → Prop
  | start {margin : List Char} (h : ∀ c ∈ margin, isBlank c = true) : Pads line (margin ++ line)
  | finish {margin : List Char} (h : ∀ c ∈ margin, isBlank c = true) : Pads line (line ++ margin)
  | comment {margin : List Char} (h : ∀ c ∈ margin, isBlank c = true) (hne : margin ≠ [])
      (text : List Char) : Pads line (line ++ (margin ++ '/' :: '/' :: text))

/-- One edit of lines: a line of layout is inserted somewhere, or a line gets more layout. -/
inductive Relays : List (List Char) → List (List Char) → Prop
  | insert (before after : List (List Char)) {line : List Char} (h : IsLayout line) :
      Relays (before ++ after) (before ++ line :: after)
  | pad (before after : List (List Char)) {line line' : List Char} (h : Pads line line') :
      Relays (before ++ line :: after) (before ++ line' :: after)

end Text

/-- One edit of the layout of a source. -/
def LayoutEdit (source source' : String) : Prop :=
  Text.Relays (Text.splitOn '\n' source.toList) (Text.splitOn '\n' source'.toList)

/-- The source that consists of the given lines. -/
def sourceOfLines (lines : List (List Char)) : String :=
  String.ofList (Text.joinWith ['\n'] lines)

/-- To edit the lines is to edit the source. -/
theorem LayoutEdit.of_relays {lines lines' : List (List Char)} (h : Text.Relays lines lines')
    (hne : lines ≠ []) (hl : ∀ line ∈ lines ++ lines', '\n' ∉ line) :
    LayoutEdit (sourceOfLines lines) (sourceOfLines lines') := by
  rw [List.forall_mem_append] at hl
  have hne' : lines' ≠ [] := by
    cases h <;> simp
  rwa [LayoutEdit, sourceOfLines, sourceOfLines, String.toList_ofList, String.toList_ofList,
    Text.splitOn_joinWith hne hl.1, Text.splitOn_joinWith hne' hl.2]

/-! ### Lines -/

theorem carryGap_fst (layout : List Char) (scanned : List Piece × List Char) :
    (carryGap layout scanned).1 = pushGap layout scanned.1 := by
  obtain ⟨_ | ⟨p, pieces⟩, trailing⟩ := scanned <;> rfl

theorem carryGap_cons (c : Char) (layout : List Char) (scanned : List Piece × List Char) :
    carryGap [c] (carryGap layout scanned) = carryGap (c :: layout) scanned := by
  obtain ⟨_ | ⟨p, pieces⟩, trailing⟩ := scanned <;> rfl

theorem scanLine_blanks_append {margin : List Char} (h : ∀ c ∈ margin, Text.isBlank c = true)
    (line : List Char) : scanLine (margin ++ line) = (scanLine line).map (carryGap margin) := by
  induction margin with
  | nil =>
    have hid : carryGap [] = id := by
      funext scanned
      obtain ⟨_ | ⟨p, pieces⟩, trailing⟩ := scanned <;> rfl
    rw [hid, Option.map_id_fun]
    rfl
  | cons c margin ih =>
    rw [List.forall_mem_cons] at h
    rw [List.cons_append, scanLine_of_isBlank h.1, ih h.2, Option.map_map]
    congr 1
    funext scanned
    exact carryGap_cons c margin scanned

theorem scanLine_of_startsComment {c : Char} {rest : List Char} (h : startsComment c rest = true) :
    scanLine (c :: rest) = some ([], c :: rest) := by
  have hslash : c = '/' := by
    rw [startsComment, Bool.and_eq_true, beq_iff_eq] at h
    exact h.1
  have hblank : ¬ Text.isBlank c = true := by
    rw [hslash]
    decide
  rw [scanLine_eq, List.dropWhile_cons_of_neg hblank, List.takeWhile_cons_of_neg hblank]
  simp [h]

/-- A line of layout holds no piece. -/
theorem scanLine_of_isLayout {line : List Char} (h : Text.IsLayout line) :
    scanLine line = some ([], line) := by
  cases h with
  | blanks h =>
    have hscan := scanLine_blanks_append h []
    rw [List.append_nil, scanLine_nil] at hscan
    rw [hscan]
    simp [carryGap]
  | comment h text =>
    rw [scanLine_blanks_append h, scanLine_of_startsComment (by rfl)]
    rfl

/-- Layout behind a line goes to the layout at its end. -/
theorem scanLine_append_layout {line trailing rest : List Char} {pieces : List Piece}
    (h : scanLine line = some (pieces, trailing)) (hd : Detached rest)
    (hrest : scanLine rest = some ([], rest)) :
    scanLine (line ++ rest) = some (pieces, trailing ++ rest) := by
  refine scanLine_induct
    (motive := fun line pieces trailing =>
      scanLine (line ++ rest) = some (pieces, trailing ++ rest))
    ?_ ?_ ?_ ?_ h
  · exact hrest
  · intro c line pieces trailing hb ih
    rw [List.cons_append, scanLine_of_isBlank hb, ih]
    cases pieces <;> rfl
  · intro c text hc
    exact scanLine_of_startsComment ((startsComment_append text hd).trans hc)
  · intro c text lexeme after pieces trailing hb hc hl ih
    rw [← text_of_readLexeme hl, List.append_assoc,
      scanLine_text_append hb hc hl (hd.replaces_append after), ih]
    rfl

/-- If a line scans, another one scans into the same pieces, up to the layout before the first. -/
def Resembles (line line' : List Char) : Prop :=
  ∀ pieces trailing, scanLine line = some (pieces, trailing) →
    ∃ layout trailing', scanLine line' = some (pushGap layout pieces, trailing')

theorem Resembles.refl (line : List Char) : Resembles line line := by
  intro pieces trailing h
  exact ⟨[], trailing, by rwa [pushGap_nil]⟩

theorem detached_of_isBlank {margin : List Char} (h : ∀ c ∈ margin, Text.isBlank c = true) :
    Detached margin := by
  intro c hc
  rw [isDetached, h c (List.mem_of_mem_head? hc)]
  rfl

theorem Resembles.append {rest : List Char} (hd : Detached rest) (h : Text.IsLayout rest)
    (line : List Char) : Resembles line (line ++ rest) := by
  intro pieces trailing hline
  refine ⟨[], trailing ++ rest, ?_⟩
  rw [pushGap_nil]
  exact scanLine_append_layout hline hd (scanLine_of_isLayout h)

theorem resembles_of_pads {line line' : List Char} (h : Text.Pads line line') :
    Resembles line line' := by
  cases h with
  | @start margin h =>
    intro pieces trailing hline
    refine ⟨margin, (carryGap margin (pieces, trailing)).2, ?_⟩
    rw [scanLine_blanks_append h, hline, Option.map_some, ← carryGap_fst margin (pieces, trailing)]
  | finish h => exact .append (detached_of_isBlank h) (.blanks h) line
  | @comment margin h hne text =>
    refine .append ?_ (.comment h text) line
    obtain ⟨c, margin, rfl⟩ := List.exists_cons_of_ne_nil hne
    exact detached_cons.2 (detached_cons.1 (detached_of_isBlank h))

/-! ### One line above others -/

/-- Puts the pieces of a line in front of what was read from the lines below it. -/
def Scan.under (number : Nat) (pieces : List Piece) (trailing : List Char) (last : Bool)
    (s : Scan) : Scan :=
  if last then ⟨onLine number pieces, trailing⟩
  else if pieces.isEmpty && 1 < number then s.carry (trailing ++ ['\n'])
  else s.after (onLine number pieces ++ [{ gap := trailing, lexeme := .lineBreak, line := number }])

/-- Lines are scanned one at a time. -/
theorem scanLines_cons {number : Nat} {line trailing : List Char} {pieces : List Piece}
    (h : scanLine line = some (pieces, trailing)) (more : List (List Char)) :
    scanLines number (line :: more) =
      (scanLines (number + 1) more).map (Scan.under number pieces trailing more.isEmpty) := by
  rw [scanLines, h]
  dsimp only
  cases more with
  | nil => rfl
  | cons next more =>
    rw [List.isEmpty_cons]
    by_cases hblank : (pieces.isEmpty && 1 < number) = true
    · rw [if_neg Bool.false_ne_true, if_pos hblank]
      congr 1
      funext s
      rw [Scan.under, if_neg Bool.false_ne_true, if_pos hblank]
    · rw [if_neg Bool.false_ne_true, if_neg hblank]
      congr 1
      funext s
      rw [Scan.under, if_neg Bool.false_ne_true, if_neg hblank]
      rfl

theorem Scan.tokens_carry (layout : List Char) (s : Scan) :
    (s.carry layout).tokens =
      s.tokens.modifyHead fun t => { t with gap := layout ++ t.gap } := by
  obtain ⟨_ | ⟨t, ts⟩, trailing⟩ := s <;> rfl

theorem Scan.under_blank {number : Nat} (hn : 1 < number) (trailing : List Char) (s : Scan) :
    s.under number [] trailing false = s.carry (trailing ++ ['\n']) := by
  rw [under, if_neg Bool.false_ne_true, if_pos (by simpa using hn)]

theorem Scan.trailing_under {number : Nat} {pieces : List Piece} (h : ¬(pieces = [] ∧ 1 < number))
    (trailing : List Char) (s : Scan) :
    (s.under number pieces trailing false).trailing = s.trailing := by
  rw [under, if_neg Bool.false_ne_true, if_neg (by simpa using h)]
  rfl

/-- A line without pieces, the first one apart, leaves no token of its own. -/
theorem Scan.tokens_under_blank {number : Nat} (hn : 1 < number) (trailing : List Char)
    (s : Scan) :
    (s.under number [] trailing false).tokens =
      s.tokens.modifyHead fun t => { t with gap := trailing ++ ['\n'] ++ t.gap } := by
  rw [← tokens_carry, under_blank hn]

/-- The break behind any other line is a token. -/
theorem Scan.tokens_under {number : Nat} {pieces : List Piece} (h : ¬(pieces = [] ∧ 1 < number))
    (trailing : List Char) (s : Scan) :
    (s.under number pieces trailing false).tokens =
      onLine number pieces ++ ⟨⟨trailing, .lineBreak⟩, number⟩ :: s.tokens := by
  rw [under, if_neg Bool.false_ne_true, if_neg (by simpa using h)]
  exact List.append_cons .. |>.symm

namespace Token.Relaid

variable {ts us : List Token} {number number' : Nat}

theorem isBreak_of_nil {beside : Bool} (h : Relaid beside [] us) : ∀ u ∈ us, u.isBreak = true := by
  generalize hts : [] = ts at h
  induction h with
  | nil h => exact h
  | cons _ _ _ _ => cases hts
  | skip hbreak _ ih => exact List.forall_mem_cons.2 ⟨hbreak, ih hts⟩

/-- At the start of a line, the layout before the first token may change on the left. -/
theorem carry_left (h : Relaid false ts us) (layout : List Char) :
    Relaid false (ts.modifyHead fun t => { t with gap := layout ++ t.gap }) us := by
  generalize hflag : false = beside at h
  induction h with
  | nil h => exact .nil h
  | cons hlexeme _ h _ =>
    subst hflag
    exact .cons hlexeme nofun h
  | skip hbreak _ ih => exact .skip hbreak (ih rfl)

/-- At the start of a line, the layout before the first token may change on the right. -/
theorem carry_right (h : Relaid false ts us) (layout : List Char) :
    Relaid false ts (us.modifyHead fun u => { u with gap := layout ++ u.gap }) := by
  cases h with
  | nil h =>
    cases us with
    | nil => exact .nil h
    | cons u us =>
      rw [List.forall_mem_cons] at h
      exact .nil (List.forall_mem_cons.2 h)
  | cons hlexeme _ h => exact .cons hlexeme nofun h
  | skip hbreak h => exact .skip hbreak h

theorem onLine_append (h : ∀ beside, Relaid beside ts us) (pieces : List Piece) (beside : Bool) :
    Relaid beside (onLine number pieces ++ ts) (onLine number' pieces ++ us) := by
  induction pieces generalizing beside with
  | nil => exact h beside
  | cons p pieces ih => exact .cons rfl (fun _ _ => rfl) (ih _)

/-- The pieces of a line may get other layout before the first one. -/
theorem pushGap_append (number number' : Nat) (h : ∀ beside, Relaid beside ts us)
    (layout : List Char) (pieces : List Piece) :
    Relaid false (onLine number pieces ++ ts) (onLine number' (pushGap layout pieces) ++ us) := by
  cases pieces with
  | nil => exact h false
  | cons p pieces => exact .cons rfl nofun (onLine_append h pieces _)

/-- A line break may stand behind any layout. -/
theorem lineBreak (h : Relaid false ts us) {trailing trailing' : List Char} (beside : Bool) :
    Relaid beside (⟨⟨trailing, .lineBreak⟩, number⟩ :: ts)
      (⟨⟨trailing', .lineBreak⟩, number'⟩ :: us) :=
  .cons rfl (fun _ => nofun) h

/-- The same pieces above related tokens, where the line on the left may be the last one. -/
theorem under {s s' : Scan} (h : Relaid false s.tokens s'.tokens) {layout : List Char}
    {pieces : List Piece} {trailing trailing' : List Char} {last last' : Bool}
    (hn : pieces = [] → last' = false → (1 < number ↔ 1 < number'))
    (hlast : last' = true → last = true)
    (hnil : last = true → s.tokens = []) :
    Relaid false (s.under number pieces trailing last).tokens
      (s'.under number' (pushGap layout pieces) trailing' last').tokens := by
  -- a line is followed by nothing, leaves no token of its own, or ends with a break
  cases last' with
  | true =>
    obtain rfl := hlast rfl
    have hend : ∀ beside, Relaid beside [] [] := fun _ => .nil (by simp)
    have hline := pushGap_append number number' hend layout pieces
    rwa [List.append_nil, List.append_nil] at hline
  | false =>
    by_cases hblank : pieces = [] ∧ 1 < number
    · obtain ⟨rfl, hnumber⟩ := hblank
      rw [pushGap, Scan.tokens_under_blank ((hn rfl rfl).1 hnumber)]
      cases last with
      | true =>
        rw [hnil rfl] at h
        exact h.carry_right _
      | false =>
        rw [Scan.tokens_under_blank hnumber]
        exact (h.carry_left _).carry_right _
    · have hblank' : ¬(pushGap layout pieces = [] ∧ 1 < number') := by
        rintro ⟨hpieces, hnumber'⟩
        rw [pushGap_eq_nil_iff] at hpieces
        exact hblank ⟨hpieces, (hn hpieces rfl).2 hnumber'⟩
      rw [Scan.tokens_under hblank']
      cases last with
      | true =>
        rw [hnil rfl] at h
        have hbreaks : ∀ beside, Relaid beside []
            (⟨⟨trailing', .lineBreak⟩, number'⟩ :: s'.tokens) :=
          fun _ => .nil (List.forall_mem_cons.2 ⟨rfl, h.isBreak_of_nil⟩)
        have hline := pushGap_append number number' hbreaks layout pieces
        rwa [List.append_nil] at hline
      | false =>
        rw [Scan.tokens_under hblank]
        exact pushGap_append number number' h.lineBreak layout pieces

end Token.Relaid

/-! ### All lines -/

/-- If lines scan, others scan into the same tokens in another layout. -/
def Rescans (number number' : Nat) (lines lines' : List (List Char)) : Prop :=
  ∀ s, scanLines number lines = .ok s →
    ∃ s', scanLines number' lines' = .ok s' ∧ Token.Relaid false s.tokens s'.tokens

namespace Rescans

variable {number number' : Nat} {line line' : List Char} {more more' : List (List Char)}

theorem refl (number : Nat) (lines : List (List Char)) : Rescans number number lines lines :=
  fun s hs => ⟨s, hs, .refl false s.tokens⟩

/-- What one line keeps.  Whether it is the first one counts only if it holds no pieces and others
follow. -/
theorem cons (hline : Resembles line line')
    (hn : ∀ trailing, scanLine line = some ([], trailing) → more' ≠ [] →
      (1 < number ↔ 1 < number'))
    (hmore : more' = [] → more = []) (h : Rescans (number + 1) (number' + 1) more more') :
    Rescans number number' (line :: more) (line' :: more') := by
  intro s hs
  cases hl : scanLine line with
  | none =>
    rw [scanLines, hl] at hs
    cases hs
  | some scanned =>
    obtain ⟨pieces, trailing⟩ := scanned
    obtain ⟨layout, trailing', hl'⟩ := hline pieces trailing hl
    rw [scanLines_cons hl] at hs
    obtain ⟨below, hbelow, rfl⟩ := Outcome.map_eq_ok_iff.1 hs
    obtain ⟨below', hbelow', hrelaid⟩ := h below hbelow
    refine ⟨_, by rw [scanLines_cons hl', hbelow']; rfl, hrelaid.under ?_ ?_ ?_⟩
    · rintro rfl hlast
      exact hn trailing hl (List.isEmpty_eq_false_iff.1 hlast)
    · simpa using hmore
    · intro hlast
      rw [List.isEmpty_iff.1 hlast] at hbelow
      cases hbelow
      rfl

/-- Behind the first line the numbers of the lines do not count. -/
theorem shift (hn : 1 < number) (hn' : 1 < number') (lines : List (List Char)) :
    Rescans number number' lines lines := by
  induction lines generalizing number number' with
  | nil =>
    rintro _ ⟨⟩
    exact ⟨_, rfl, .refl false []⟩
  | cons line more ih =>
    exact cons (.refl line) (fun _ _ _ => iff_of_true hn hn') id
      (ih (Nat.lt_succ_of_lt hn) (Nat.lt_succ_of_lt hn'))

theorem insert_last (h : Text.IsLayout line) (number : Nat) : Rescans number number [] [line] := by
  rintro _ ⟨⟩
  exact ⟨_, scanLines_cons (scanLine_of_isLayout h) [], .nil (by simp [Scan.under])⟩

/-- A line of layout behind the first line leaves no token. -/
theorem insert_of_lt (h : Text.IsLayout line) (hn : 1 < number) (after : List (List Char)) :
    Rescans number number after (line :: after) := by
  cases after with
  | nil => exact insert_last h number
  | cons next more =>
    intro s hs
    obtain ⟨below, hbelow, hrelaid⟩ := shift hn (Nat.lt_succ_of_lt hn) (next :: more) s hs
    refine ⟨_, by rw [scanLines_cons (scanLine_of_isLayout h), hbelow]; rfl, ?_⟩
    rw [List.isEmpty_cons, Scan.tokens_under_blank hn]
    exact hrelaid.carry_right _

/-- A line of layout in front of the first line leaves a break before the first token, in the place
of the break that the first line leaves if it holds no piece. -/
theorem insert_first (h : Text.IsLayout line) (after : List (List Char)) :
    Rescans 1 1 after (line :: after) := by
  cases after with
  | nil => exact insert_last h 1
  | cons next more =>
    have hfirst : ∀ pieces : List Piece, ¬(pieces = [] ∧ 1 < 1) := by simp
    intro s hs
    by_cases hblank : more ≠ [] ∧ ∃ trailing, scanLine next = some ([], trailing)
    · -- the line that was the first one loses its break, being blank
      obtain ⟨hmore, trailing, hl⟩ := hblank
      rw [scanLines_cons hl, List.isEmpty_eq_false_iff.2 hmore] at hs
      obtain ⟨below, hbelow, rfl⟩ := Outcome.map_eq_ok_iff.1 hs
      obtain ⟨below', hbelow', hrelaid⟩ :=
        shift (Nat.lt_succ_self 1) (Nat.lt_succ_of_lt (Nat.lt_succ_self 1)) more below hbelow
      refine ⟨_, by
        rw [scanLines_cons (scanLine_of_isLayout h), scanLines_cons hl, hbelow']; rfl, ?_⟩
      rw [List.isEmpty_cons, Scan.tokens_under (hfirst []), Scan.tokens_under (hfirst []),
        List.isEmpty_eq_false_iff.2 hmore, Scan.tokens_under_blank (Nat.lt_succ_self 1)]
      exact (hrelaid.carry_right _).lineBreak false
    · -- the break of the new line comes before everything else
      have hsame : Rescans 1 2 (next :: more) (next :: more) :=
        cons (.refl next) (fun trailing hl hmore => absurd ⟨hmore, trailing, hl⟩ hblank) id
          (shift (Nat.lt_succ_self 1) (Nat.lt_succ_of_lt (Nat.lt_succ_self 1)) more)
      obtain ⟨below, hbelow, hrelaid⟩ := hsame s hs
      refine ⟨_, by rw [scanLines_cons (scanLine_of_isLayout h), hbelow]; rfl, ?_⟩
      rw [List.isEmpty_cons, Scan.tokens_under (hfirst [])]
      exact .skip rfl hrelaid

theorem insert (h : Text.IsLayout line) (hn : 0 < number) (after : List (List Char)) :
    Rescans number number after (line :: after) := by
  rcases Nat.lt_or_eq_of_le hn with hlt | rfl
  · exact insert_of_lt h hlt after
  · exact insert_first h after

/-- Lines before the edited ones stay as they are. -/
theorem append (before : List (List Char)) (hn : 0 < number) (hmore : more' ≠ [])
    (h : ∀ number, 0 < number → Rescans number number more more') :
    Rescans number number (before ++ more) (before ++ more') := by
  induction before generalizing number with
  | nil => exact h number hn
  | cons line before ih =>
    refine cons (.refl line) (fun _ _ _ => Iff.rfl) (fun hnil => ?_) (ih (Nat.succ_pos number))
    exact absurd (List.append_eq_nil_iff.1 hnil).2 hmore

end Rescans

/-- An edit of the layout changes nothing but the layout of the tokens. -/
theorem Text.Relays.rescans {lines lines' : List (List Char)} (h : Text.Relays lines lines') :
    Rescans 1 1 lines lines' := by
  cases h with
  | insert before after h =>
    exact .append before Nat.one_pos (List.cons_ne_nil _ _) fun _ hn => .insert h hn after
  | pad before after h =>
    refine .append before Nat.one_pos (List.cons_ne_nil _ _) fun number _ => ?_
    exact .cons (resembles_of_pads h) (fun _ _ _ => Iff.rfl) id (.refl (number + 1) after)

theorem LayoutEdit.exists_scan {source source' : String} (h : LayoutEdit source source')
    {s : Scan} (hs : scan source.toList = .ok s) :
    ∃ s', scan source'.toList = .ok s' ∧ Token.Relaid false s.tokens s'.tokens :=
  h.rescans s hs

end Playbook
