import Mathlib.Data.List.GetD
import Mathlib.Data.List.Infix
import Mathlib.Data.List.TakeWhile
import MatrixScript.Diagnostic.Basic
import MatrixScript.Proofs.Layout.Positions
import MatrixScript.Source.Span

/-!
# Looking up lines and columns

A table of lines only knows the offsets at which lines start. A place between two characters is
given by the text in front of it and the text behind it, and what the table says about it can be
read off these: the line is one more than the newlines in front, the column one more than the
characters since the last of them, and the line itself is what stands around the place up to the
next newline on either side.

The starts of the lines ascend, so a search among them comes back with a line that starts at the
place looked for, or with the number of lines that start in front of it. Either way this is the line
of the place. The line starts between two characters, at or in front of the place, and what is
between the two is counted in characters. A place further on is in a later line, or in the same one
in a later column.
-/

namespace MatrixScript

/-! ### Lines by the text in front and behind -/

/-- The last line of a text. -/
def lastLine (text : List Char) : List Char := (text.reverse.takeWhile (· ≠ '\n')).reverse

/-- What comes before the last line, the newline included. -/
def beforeLastLine (text : List Char) : List Char := (text.reverse.dropWhile (· ≠ '\n')).reverse

/-- The first line of a text, without its newline. -/
def firstLine (text : List Char) : List Char := text.takeWhile (· ≠ '\n')

/-- A line without the carriage returns at its end. -/
def trimReturns (line : List Char) : List Char := (line.reverse.dropWhile (· = '\r')).reverse

theorem beforeLastLine_append (text : List Char) : beforeLastLine text ++ lastLine text = text := by
  rw [beforeLastLine, lastLine, ← List.reverse_append, List.takeWhile_append_dropWhile,
    List.reverse_reverse]

theorem forall_mem_lastLine (text : List Char) : ∀ c ∈ lastLine text, c ≠ '\n' := by
  intro c hc
  have hkept := List.mem_takeWhile_imp (List.mem_reverse.mp hc)
  exact of_decide_eq_true hkept

/-- A line is followed by nothing, or by a newline. -/
theorem dropWhile_line_cases (text : List Char) :
    text.dropWhile (· ≠ '\n') = [] ∨ ∃ lines, text.dropWhile (· ≠ '\n') = '\n' :: lines := by
  cases hdrop : text.dropWhile (· ≠ '\n') with
  | nil => exact .inl rfl
  | cons c lines =>
      have hc : (decide (c ≠ '\n')) = false := by
        have hhead := List.head?_dropWhile_not (fun c : Char => decide (c ≠ '\n')) text
        rw [hdrop] at hhead
        simpa using hhead
      obtain rfl : c = '\n' := not_not.mp (of_decide_eq_false hc)
      exact .inr ⟨lines, rfl⟩

/-- In front of the last line there is nothing, or a newline. -/
theorem beforeLastLine_cases (text : List Char) :
    beforeLastLine text = [] ∨ ∃ lines, beforeLastLine text = lines ++ ['\n'] := by
  unfold beforeLastLine
  rcases dropWhile_line_cases text.reverse with hnone | ⟨lines, hlines⟩
  · exact .inl (congrArg List.reverse hnone)
  · exact .inr ⟨lines.reverse, (congrArg List.reverse hlines).trans List.reverse_cons⟩

theorem count_newline_eq (text : List Char) :
    text.count '\n' = (beforeLastLine text).count '\n' := by
  have hnone : (lastLine text).count '\n' = 0 :=
    List.count_eq_zero.mpr fun h => forall_mem_lastLine text _ h rfl
  rw [← beforeLastLine_append text, List.count_append, hnone, beforeLastLine_append]
  rfl

namespace LineTable

variable {front rest : List Char} {offset : Nat}

theorem startsAfterNewlines_append (offset : Nat) (front rest : List Char) :
    startsAfterNewlines offset (front ++ rest)
      = startsAfterNewlines offset front
        ++ startsAfterNewlines (offset + byteCount front) rest := by
  induction front generalizing offset with
  | nil => rfl
  | cons c front ih =>
      rw [List.cons_append, startsAfterNewlines, startsAfterNewlines, byteCount_cons,
        ← Nat.add_assoc]
      split
      · rename_i hc
        subst hc
        rw [ih, List.cons_append]
        rfl
      · exact ih _

theorem length_startsAfterNewlines (offset : Nat) (text : List Char) :
    (startsAfterNewlines offset text).length = text.count '\n' := by
  induction text generalizing offset with
  | nil => rfl
  | cons c text ih =>
      rw [startsAfterNewlines]
      split
      · rename_i hc
        rw [List.length_cons, ih, hc, List.count_cons_self]
      · rename_i hc
        rw [ih, List.count_cons_of_ne hc]

theorem lt_of_mem_startsAfterNewlines {text : List Char} {n : Nat}
    (h : n ∈ startsAfterNewlines offset text) : offset < n := by
  induction text generalizing offset with
  | nil => cases h
  | cons c text ih =>
      rw [startsAfterNewlines] at h
      split at h
      · rcases List.mem_cons.mp h with rfl | h
        · exact Nat.lt_succ_self offset
        · exact Nat.lt_of_succ_lt (ih h)
      · exact Nat.lt_of_le_of_lt (Nat.le_add_right _ _) (ih h)

theorem le_of_mem_startsAfterNewlines {text : List Char} {n : Nat}
    (h : n ∈ startsAfterNewlines offset text) : n ≤ offset + byteCount text := by
  induction text generalizing offset with
  | nil => cases h
  | cons c text ih =>
      rw [startsAfterNewlines] at h
      rw [byteCount_cons, ← Nat.add_assoc]
      split at h
      · rename_i hc
        subst hc
        rcases List.mem_cons.mp h with rfl | h
        · exact Nat.le_add_right _ _
        · exact ih h
      · exact ih h

theorem source_eq (front rest : List Char) : (ofText (front ++ rest)).source
    = beforeLastLine front ++ (lastLine front ++ rest) := by
  rw [← List.append_assoc, beforeLastLine_append]
  rfl

/-- The line of a place is one more than the newlines in front of it. -/
theorem lineOf_append (front rest : List Char) :
    (ofText (front ++ rest)).lineOf (byteCount front) = front.count '\n' + 1 := by
  have hfront : (startsAfterNewlines 0 front).countP (· ≤ byteCount front) = front.count '\n' := by
    rw [List.countP_eq_length.mpr, length_startsAfterNewlines]
    intro n hn
    exact decide_eq_true ((le_of_mem_startsAfterNewlines hn).trans (Nat.zero_add _).le)
  have hrest :
      (startsAfterNewlines (0 + byteCount front) rest).countP (· ≤ byteCount front) = 0 := by
    refine List.countP_eq_zero.mpr fun n hn hle => ?_
    have hlt := lt_of_mem_startsAfterNewlines hn
    have hle := of_decide_eq_true hle
    omega
  rw [lineOf, ofText, startsAfterNewlines_append, List.countP_cons_of_pos (by simp),
    List.countP_append, hfront, hrest]

/-- The line of a place starts where the last line in front of it does. -/
theorem startOf_append (front rest : List Char) :
    (ofText (front ++ rest)).startOf (front.count '\n' + 1) = byteCount (beforeLastLine front) := by
  have hsource : front ++ rest = beforeLastLine front ++ (lastLine front ++ rest) :=
    source_eq front rest
  rw [startOf, Nat.add_sub_cancel, count_newline_eq, ofText]
  dsimp only
  rw [hsource, startsAfterNewlines_append]
  rcases beforeLastLine_cases front with hnone | ⟨lines, hlines⟩
  · rw [hnone]
    rfl
  · have hlength : (startsAfterNewlines 0 lines).length = lines.count '\n' :=
      length_startsAfterNewlines 0 lines
    rw [hlines, List.count_append, startsAfterNewlines_append, List.append_assoc,
      List.count_singleton_self, List.getD_cons_succ, List.getD_append_right _ _ _ _ hlength.le,
      hlength, Nat.sub_self, byteCount_append, Nat.zero_add]
    rfl

theorem position_append (front rest : List Char) :
    (ofText (front ++ rest)).position (byteCount front)
      = (front.count '\n' + 1, (lastLine front).length + 1) := by
  have hsource := source_eq front rest
  have hfront :
      byteCount front = byteCount (beforeLastLine front) + byteCount (lastLine front) := by
    rw [← byteCount_append, beforeLastLine_append]
  have hsize : byteCount (ofText (front ++ rest)).source = byteCount front + byteCount rest :=
    byteCount_append _ _
  have hstart : min (byteCount (beforeLastLine front)) (byteCount front + byteCount rest)
      = byteCount (beforeLastLine front) := by omega
  have hlength : max (min (byteCount front) (byteCount front + byteCount rest))
      (byteCount (beforeLastLine front)) - byteCount (beforeLastLine front)
        = byteCount (lastLine front) := by omega
  unfold position
  dsimp only
  rw [lineOf_append, startOf_append, hsize, hstart, hlength, hsource, dropBytes_append,
    charsWithin?_append, Option.getD_some]

/-- The line of a place is shown without the carriage returns at its end. -/
theorem textOf_append (front rest : List Char) :
    (ofText (front ++ rest)).textOf (front.count '\n' + 1)
      = trimReturns (lastLine front ++ firstLine rest) := by
  have hsource := source_eq front rest
  have hstart : min (byteCount (beforeLastLine front)) (byteCount (ofText (front ++ rest)).source)
      = byteCount (beforeLastLine front) := by
    rw [hsource, byteCount_append]
    omega
  have hline : (lastLine front ++ rest).takeWhile (· ≠ '\n') = lastLine front ++ firstLine rest :=
    List.takeWhile_append_of_pos fun c hc => decide_eq_true (forall_mem_lastLine front c hc)
  unfold textOf
  dsimp only
  rw [startOf_append, hstart, hsource, dropBytes_append, hline]
  rfl

end LineTable

/-! ### Places and searches -/

variable {source front rest mid : List Char} {offset line : Nat}

/-- A place in a text, with what is in front of it and behind it on its line. -/
structure OnLine (source before left right after : List Char) : Prop where
  eq : source = before ++ left ++ (right ++ after)
  opens : before = [] ∨ ∃ lines, before = lines ++ ['\n']
  closes : after = [] ∨ ∃ lines, after = '\n' :: lines
  plain : '\n' ∉ left ++ right

/-- What a search for an offset among ascending line starts comes back with, as the number of a
line: a line that starts there, or the last one that starts in front of it. -/
inductive SearchesTo (starts : List Nat) (offset : Nat) : Nat → Prop
  | found {i : Nat} (h : starts[i]? = some offset) : SearchesTo starts offset (i + 1)
  | missing {i : Nat} (hle : i ≤ starts.length) (hbefore : ∀ start ∈ starts.take i, start < offset)
      (hafter : ∀ start ∈ starts.drop i, offset < start) : SearchesTo starts offset i

/-- The lookup of a place takes what it needs from the table and from the text without missing
anything: its line is in the table and starts between two characters, at or in front of the place,
and from there to the place there are whole characters. -/
structure LineTable.LooksUp (t : LineTable) (offset : Nat) : Prop where
  line_pos : 0 < t.lineOf offset
  start : t.starts[t.lineOf offset - 1]? = some (t.startOf (t.lineOf offset))
  boundary : Boundary t.source (t.startOf (t.lineOf offset))
  start_le : t.startOf (t.lineOf offset) ≤ offset
  le_size : offset ≤ byteCount t.source
  column : (charsWithin? (offset - t.startOf (t.lineOf offset))
    (dropBytes (t.startOf (t.lineOf offset)) t.source)).isSome = true

/-! ### Lines of a text -/

theorem exists_onLine (front rest : List Char) :
    ∃ after,
      OnLine (front ++ rest) (beforeLastLine front) (lastLine front) (firstLine rest) after := by
  refine ⟨rest.dropWhile (· ≠ '\n'), ?_, beforeLastLine_cases front, dropWhile_line_cases rest, ?_⟩
  · rw [beforeLastLine_append, firstLine, List.takeWhile_append_dropWhile]
  · intro hmem
    rcases List.mem_append.mp hmem with hleft | hright
    · exact forall_mem_lastLine front _ hleft rfl
    · have hkept := List.mem_takeWhile_imp (p := fun c => decide (c ≠ '\n')) hright
      exact of_decide_eq_true hkept rfl

/-- Text without a newline goes on with the last line. -/
theorem lastLine_append (h : '\n' ∉ mid) : lastLine (front ++ mid) = lastLine front ++ mid := by
  have hplain : ∀ c ∈ mid.reverse, decide (c ≠ '\n') = true := by
    intro c hc
    exact decide_eq_true fun heq => h (heq ▸ List.mem_reverse.mp hc)
  rw [lastLine, List.reverse_append, List.takeWhile_append_of_pos hplain, List.reverse_append,
    List.reverse_reverse]
  rfl

/-- A line is what is shown of it, and carriage returns. -/
theorem exists_trimReturns_append (text : List Char) :
    ∃ n, text = trimReturns text ++ List.replicate n '\r'
      ∧ (trimReturns text).getLast? ≠ some '\r' := by
  have hreturns : ∀ c ∈ (text.reverse.takeWhile (· = '\r')).reverse, c = '\r' := by
    intro c hc
    have hkept := List.mem_takeWhile_imp (List.mem_reverse.mp hc)
    exact of_decide_eq_true hkept
  refine ⟨(text.reverse.takeWhile (· = '\r')).reverse.length, ?_, ?_⟩
  · rw [← List.eq_replicate_length.mpr hreturns, trimReturns, ← List.reverse_append,
      List.takeWhile_append_dropWhile, List.reverse_reverse]
  · have hhead := List.head?_dropWhile_not (fun c : Char => decide (c = '\r')) text.reverse
    rw [trimReturns, List.getLast?_reverse]
    intro hlast
    rw [hlast] at hhead
    simp at hhead

/-! ### Searching -/

theorem pairwise_startsAfterNewlines (offset : Nat) (text : List Char) :
    (LineTable.startsAfterNewlines offset text).Pairwise (· < ·) := by
  induction text generalizing offset with
  | nil => exact .nil
  | cons c text ih =>
      rw [LineTable.startsAfterNewlines]
      split
      · exact .cons (fun _ h => LineTable.lt_of_mem_startsAfterNewlines h) (ih _)
      · exact ih _

theorem pairwise_starts (source : List Char) :
    (LineTable.ofText source).starts.Pairwise (· < ·) :=
  .cons (fun _ h => LineTable.lt_of_mem_startsAfterNewlines h) (pairwise_startsAfterNewlines 0 source)

namespace SearchesTo

variable {starts : List Nat}

theorem countP_of_split {i : Nat} (hle : i ≤ starts.length)
    (hbefore : ∀ start ∈ starts.take i, start ≤ offset)
    (hafter : ∀ start ∈ starts.drop i, offset < start) : starts.countP (· ≤ offset) = i := by
  have hcount : (starts.take i).countP (· ≤ offset) = i := by
    rw [List.countP_eq_length.mpr fun start h => decide_eq_true (hbefore start h),
      List.length_take_of_le hle]
  have hnone : (starts.drop i).countP (· ≤ offset) = 0 :=
    List.countP_eq_zero.mpr fun start h hle =>
      Nat.not_lt.mpr (of_decide_eq_true hle) (hafter start h)
  rw [← List.take_append_drop i starts, List.countP_append, hcount, hnone, Nat.add_zero]

/-- Whatever a search comes back with is the number of starts up to the place. -/
theorem eq_countP (hsorted : starts.Pairwise (· < ·)) (h : SearchesTo starts offset line) :
    line = starts.countP (· ≤ offset) := by
  cases h with
  | missing hle hbefore hafter =>
      exact (countP_of_split hle (fun start h => (hbefore start h).le) hafter).symm
  | @found i h =>
      obtain ⟨hi, hstart⟩ := List.getElem?_eq_some_iff.mp h
      have hsplit : starts = starts.take i ++ offset :: starts.drop (i + 1) := by
        rw [← hstart, ← List.drop_eq_getElem_cons hi, List.take_append_drop]
      rw [hsplit, List.pairwise_append, List.pairwise_cons] at hsorted
      refine (countP_of_split hi (fun start hmem => ?_) hsorted.2.1.1).symm
      rw [List.take_add_one, h] at hmem
      rcases List.mem_append.mp hmem with hmem | hmem
      · exact (hsorted.2.2 start hmem offset List.mem_cons_self).le
      · exact (List.mem_singleton.mp hmem).le

theorem exists_split (hsorted : starts.Pairwise (· < ·)) (offset : Nat) :
    ∃ upTo behind, starts = upTo ++ behind ∧ (∀ start ∈ upTo, start ≤ offset)
      ∧ ∀ start ∈ behind, offset < start := by
  refine ⟨starts.takeWhile (· ≤ offset), starts.dropWhile (· ≤ offset),
    List.takeWhile_append_dropWhile.symm, fun start h => ?_, ?_⟩
  · have hkept := List.mem_takeWhile_imp h
    exact of_decide_eq_true hkept
  · have hrest := hsorted.sublist (List.dropWhile_sublist (· ≤ offset))
    have hhead := List.head?_dropWhile_not (fun start : Nat => decide (start ≤ offset)) starts
    generalize starts.dropWhile (· ≤ offset) = behind at hrest hhead
    cases behind with
    | nil => exact nofun
    | cons first behind =>
        have hfirst : offset < first := by simpa using hhead
        refine List.forall_mem_cons.mpr ⟨hfirst, fun start h => ?_⟩
        exact hfirst.trans ((List.pairwise_cons.mp hrest).1 start h)

/-- The number of starts up to the place is what a search comes back with. -/
theorem of_pairwise (hsorted : starts.Pairwise (· < ·)) :
    SearchesTo starts offset (starts.countP (· ≤ offset)) := by
  obtain ⟨upTo, behind, rfl, hupTo, hbehind⟩ := exists_split hsorted offset
  have hcount : (upTo ++ behind).countP (· ≤ offset) = upTo.length :=
    countP_of_split (by simp) (by simpa using hupTo) (by simpa using hbehind)
  rw [hcount]
  rcases List.eq_nil_or_concat' upTo with rfl | ⟨front, last, rfl⟩
  · exact .missing (Nat.zero_le _) nofun (by simpa using hbehind)
  · have hlast := hupTo last (List.mem_append_right _ List.mem_cons_self)
    have hfront := (List.pairwise_append.mp (List.pairwise_append.mp hsorted).1).2.2
    rcases hlast.eq_or_lt with rfl | hlt
    · rw [List.length_append]
      exact .found (by simp)
    · refine .missing (by simp) (fun start h => ?_) (by simpa using hbehind)
      rw [List.take_left' rfl] at h
      rcases List.mem_append.mp h with h | h
      · exact (hfront start h last List.mem_cons_self).trans hlt
      · exact (List.mem_singleton.mp h).trans_lt hlt

end SearchesTo

/-! ### Lookups -/

namespace LineTable

theorem searchesTo_iff (source : List Char) (offset line : Nat) :
    SearchesTo (ofText source).starts offset line ↔ line = (ofText source).lineOf offset := by
  have hsorted := pairwise_starts source
  constructor
  · exact fun h => h.eq_countP hsorted
  · rintro rfl
    exact .of_pairwise hsorted

theorem looksUp_append (front rest : List Char) :
    (ofText (front ++ rest)).LooksUp (byteCount front) := by
  have hsource := source_eq front rest
  have hfront :
      byteCount front = byteCount (beforeLastLine front) + byteCount (lastLine front) := by
    rw [← byteCount_append, beforeLastLine_append]
  have hline := lineOf_append front rest
  have hstart := startOf_append front rest
  constructor
  · exact hline ▸ Nat.succ_pos _
  · have hlength : front.count '\n' < (ofText (front ++ rest)).starts.length := by
      rw [ofText, List.length_cons, length_startsAfterNewlines, List.count_append]
      omega
    rw [hline, Nat.add_sub_cancel, List.getElem?_eq_getElem hlength, startOf, Nat.add_sub_cancel,
      List.getD_eq_getElem _ _ hlength]
  · rw [hline, hstart]
    exact ⟨beforeLastLine front, ⟨_, hsource.symm⟩, rfl⟩
  · rw [hline, hstart, hfront]
    exact Nat.le_add_right _ _
  · exact (Nat.le_add_right _ _).trans (byteCount_append front rest).ge
  · rw [hline, hstart, hfront, Nat.add_sub_cancel_left, hsource, dropBytes_append,
      charsWithin?_append]
    rfl

/-- A place further on has a later line, or a later column in the same line. -/
theorem position_lt (front rest : List Char) (hmid : mid ≠ []) :
    Prod.Lex (· < ·) (· < ·) ((ofText (front ++ mid ++ rest)).position (byteCount front))
      ((ofText (front ++ mid ++ rest)).position (byteCount (front ++ mid))) := by
  have hfront := position_append front (mid ++ rest)
  rw [← List.append_assoc] at hfront
  rw [hfront, position_append, List.count_append]
  by_cases hline : '\n' ∈ mid
  · have hcount := List.count_pos_iff.mpr hline
    exact .left _ _ (by omega)
  · have hlength := List.length_pos_iff.mpr hmid
    rw [List.count_eq_zero.mpr hline, lastLine_append hline, List.length_append]
    exact .right _ (by omega)

/-- The line of a place between two characters is one more than the newlines in front of it, which
is what a search among the line starts comes back with, and its column one more than the characters
since the last newline. A place further on has a greater line and column, and a line is shown
without the carriage returns at its end. -/
theorem position_exact (source : List Char) :
    (∀ offset, Boundary source offset → ∃ before left right after,
      OnLine source before left right after ∧ offset = byteCount (before ++ left)
        ∧ (ofText source).position offset = ((before ++ left).count '\n' + 1, left.length + 1)
        ∧ (∀ line, SearchesTo (ofText source).starts offset line
          ↔ line = (before ++ left).count '\n' + 1)
        ∧ (ofText source).LooksUp offset
        ∧ ∃ shown returns, (ofText source).textOf ((before ++ left).count '\n' + 1) = shown
          ∧ left ++ right = shown ++ List.replicate returns '\r' ∧ shown.getLast? ≠ some '\r')
    ∧ ∀ m n, Boundary source m → Boundary source n → m < n →
      Prod.Lex (· < ·) (· < ·) ((ofText source).position m) ((ofText source).position n) := by
  constructor
  · rintro _ ⟨front, ⟨rest, rfl⟩, rfl⟩
    obtain ⟨after, honLine⟩ := exists_onLine front rest
    obtain ⟨returns, hreturns, hlast⟩ :=
      exists_trimReturns_append (lastLine front ++ firstLine rest)
    refine ⟨_, _, _, after, honLine, ?_⟩
    rw [beforeLastLine_append]
    refine ⟨rfl, position_append front rest, fun line => ?_, looksUp_append front rest, _, returns,
      textOf_append front rest, hreturns, hlast⟩
    rw [searchesTo_iff, lineOf_append]
  · rintro _ _ ⟨front, hfront, rfl⟩ ⟨front', hfront', rfl⟩ hlt
    obtain ⟨mid, rfl⟩ : front <+: front' := by
      refine (List.prefix_or_prefix_of_prefix hfront hfront').resolve_right ?_
      rintro ⟨mid, rfl⟩
      rw [byteCount_append] at hlt
      omega
    obtain ⟨rest, rfl⟩ := hfront'
    refine position_lt front rest ?_
    rintro rfl
    exact absurd hlt (by simp)

/-- The second letter of a line that ends in a carriage return, and the start of the next line. -/
theorem position_exact_letter :
    let source := ['a', '\n', 'é', 'b', '\r', '\n', 'c']
    let t := ofText source
    (Boundary source 4 ∧ Boundary source 7 ∧ 4 < 7)
      ∧ t.position 4 = (2, 2) ∧ (∀ line, SearchesTo t.starts 4 line ↔ line = 2) ∧ t.LooksUp 4
      ∧ t.textOf 2 = ['é', 'b']
      ∧ Prod.Lex (· < ·) (· < ·) (t.position 4) (t.position 7) := by
  intro source t
  have hletter : Boundary source 4 := ⟨['a', '\n', 'é'], by decide, by decide⟩
  have hnext : Boundary source 7 := ⟨['a', '\n', 'é', 'b', '\r', '\n'], by decide, by decide⟩
  have hposition : t.position 4 = (2, 2) := by decide +kernel
  obtain ⟨hplaces, hascends⟩ := position_exact source
  obtain ⟨before, left, -, -, -, -, hexact, hsearch, hlooksUp, -⟩ := hplaces 4 hletter
  have hline : (before ++ left).count '\n' + 1 = 2 :=
    (Prod.mk.inj (hexact.symm.trans hposition)).1
  rw [hline] at hsearch
  exact ⟨⟨hletter, hnext, by decide⟩, hposition, hsearch, hlooksUp, by decide +kernel,
    hascends 4 7 hletter hnext (by decide)⟩

end LineTable

end MatrixScript
