import MatrixScript.Proofs.Reading.Steps

/-!
# Places in a text

Whatever is read lies ahead of the cursor, and the cursor moves by whole characters. So every place
that a reader names, in a node or in a report, is a boundary between two characters of the text, as
long as the text is short enough for its offsets to be kept.
-/

namespace MatrixScript

namespace Cursor

variable {c d e : Cursor}

/-- Whether the second cursor stands where the first one comes by passing text. -/
def Reaches (c d : Cursor) : Prop := ∃ w, c.rest = w ++ d.rest ∧ d.offset = c.offset + byteCount w

theorem Reaches.refl (c : Cursor) : c.Reaches c := ⟨[], rfl, rfl⟩

theorem Reaches.trans (h : c.Reaches d) (h' : d.Reaches e) : c.Reaches e := by
  obtain ⟨v, hrest, hoffset⟩ := h
  obtain ⟨w, hrest', hoffset'⟩ := h'
  refine ⟨v ++ w, by rw [hrest, hrest', List.append_assoc], ?_⟩
  rw [hoffset', hoffset, byteCount_append, Nat.add_assoc]

theorem Reaches.length_le (h : c.Reaches d) : d.rest.length ≤ c.rest.length := by
  obtain ⟨w, hrest, -⟩ := h
  rw [hrest, List.length_append]
  exact Nat.le_add_left _ _

theorem Reaches.offset_le (h : c.Reaches d) : c.offset ≤ d.offset := by
  obtain ⟨w, -, hoffset⟩ := h
  rw [hoffset]
  exact Nat.le_add_right _ _

theorem Reaches.offset_lt (h : c.Reaches d) (hlt : d.rest.length < c.rest.length) :
    c.offset < d.offset := by
  obtain ⟨w, hrest, hoffset⟩ := h
  have hlength := length_le_byteCount w
  rw [hrest, List.length_append] at hlt
  omega

theorem reaches_append {p q : List Char} (h : c.rest = p ++ q) :
    c.Reaches ⟨c.offset + byteCount p, q⟩ :=
  ⟨p, h, rfl⟩

theorem exists_dropBytes (n : Nat) (cs : List Char) : ∃ p, cs = p ++ dropBytes n cs := by
  induction cs generalizing n with
  | nil => cases n <;> exact ⟨[], by simp [dropBytes]⟩
  | cons x cs ih =>
      cases n with
      | zero => exact ⟨[], by simp [dropBytes]⟩
      | succ n =>
          obtain ⟨p, hp⟩ := ih (n + 1 - x.utf8Size)
          refine ⟨x :: p, ?_⟩
          rw [dropBytes, List.cons_append, ← hp]

theorem reaches_advance (c : Cursor) (n : Nat) : c.Reaches (c.advance n) := by
  obtain ⟨p, hp⟩ := exists_dropBytes n c.rest
  refine ⟨p, hp, ?_⟩
  have hbytes := congrArg byteCount hp
  rw [byteCount_append] at hbytes
  simp only [advance]
  omega

theorem reaches_next (c : Cursor) : c.Reaches c.next := by
  cases hrest : c.rest with
  | nil =>
      rw [next, hrest]
      exact .refl c
  | cons x d =>
      rw [next_cons hrest]
      exact ⟨[x], hrest, rfl⟩

theorem reaches_takeWhile (c : Cursor) (p : Char → Bool) : c.Reaches (c.takeWhile p).2 :=
  ⟨c.rest.takeWhile p, List.takeWhile_append_dropWhile.symm, rfl⟩

theorem reaches_toEnd (c : Cursor) : c.Reaches c.toEnd := ⟨c.rest, (List.append_nil _).symm, rfl⟩

/-- Passing bytes passes a character, if one is left. -/
theorem advance_length {n : Nat} (hn : n ≠ 0) (hc : c.rest ≠ []) :
    (c.advance n).rest.length < c.rest.length := by
  obtain ⟨n, rfl⟩ := Nat.exists_eq_succ_of_ne_zero hn
  obtain ⟨x, d, hd⟩ := List.exists_cons_of_ne_nil hc
  obtain ⟨p, hp⟩ := exists_dropBytes (n + 1 - x.utf8Size) d
  have hlength := congrArg List.length hp
  rw [List.length_append] at hlength
  simp only [advance, hd, Nat.succ_eq_add_one, dropBytes, List.length_cons]
  omega

/-- Whether the cursor stands somewhere in the text. -/
def In (text : List Char) (c : Cursor) : Prop := (ofText text).Reaches c

end Cursor

/-- Whether a number of bytes is that of some first characters of the text. -/
def Boundary (text : List Char) (n : Nat) : Prop := ∃ w, w <+: text ∧ byteCount w = n

section

variable {text : List Char} {c : Cursor} {m n : Nat} {s t : Span}

theorem boundary_zero (text : List Char) : Boundary text 0 := ⟨[], List.nil_prefix, rfl⟩

theorem Boundary.le (h : Boundary text n) : n ≤ byteCount text := by
  obtain ⟨w, ⟨v, rfl⟩, rfl⟩ := h
  rw [byteCount_append]
  exact Nat.le_add_right _ _

theorem Cursor.In.boundary (h : c.In text) : Boundary text c.offset := by
  obtain ⟨w, hrest, hoffset⟩ := h
  refine ⟨w, ⟨c.rest, hrest.symm⟩, ?_⟩
  rw [hoffset, ofText, Nat.zero_add]

theorem clampOffset_toNat (h : n < 4294967296) : (clampOffset n).toNat = n := by
  rw [clampOffset, if_pos h, UInt32.toNat_ofNat']
  omega

/-- Whether a span lies within the text and cuts no character. -/
structure Span.Within (text : List Char) (s : Span) : Prop where
  start : Boundary text s.start.toNat
  stop : Boundary text s.stop.toNat
  le : s.start.toNat ≤ s.stop.toNat

theorem Span.within_none (text : List Char) : Span.none.Within text :=
  ⟨boundary_zero text, boundary_zero text, Nat.le_refl 0⟩

theorem Span.ofRange_start (h : m < 4294967296) : (Span.ofRange m n).start.toNat = m :=
  clampOffset_toNat h

theorem Span.ofRange_stop (h : n < 4294967296) : (Span.ofRange m n).stop.toNat = n :=
  clampOffset_toNat h

theorem Span.within_ofRange (hshort : byteCount text < 4294967296) (hm : Boundary text m)
    (hn : Boundary text n) (hle : m ≤ n) : (Span.ofRange m n).Within text := by
  have hstart : (Span.ofRange m n).start.toNat = m :=
    ofRange_start (Nat.lt_of_le_of_lt hm.le hshort)
  have hstop : (Span.ofRange m n).stop.toNat = n := ofRange_stop (Nat.lt_of_le_of_lt hn.le hshort)
  refine ⟨?_, ?_, ?_⟩
  · rw [hstart]
    exact hm
  · rw [hstop]
    exact hn
  · rw [hstart, hstop]
    exact hle

theorem Span.merge_start (s t : Span) :
    (s.merge t).start.toNat = min s.start.toNat t.start.toNat := by
  change (if s.start ≤ t.start then s.start else t.start).toNat = _
  rw [Nat.min_def]
  simp only [UInt32.le_iff_toNat_le]
  split <;> rfl

theorem Span.merge_stop (s t : Span) :
    (s.merge t).stop.toNat = max s.stop.toNat t.stop.toNat := by
  change (if s.stop ≤ t.stop then t.stop else s.stop).toNat = _
  rw [Nat.max_def]
  simp only [UInt32.le_iff_toNat_le]
  split <;> rfl

theorem Span.Within.merge (hs : s.Within text) (ht : t.Within text) : (s.merge t).Within text := by
  refine ⟨?_, ?_, ?_⟩
  · rw [merge_start]
    rcases Nat.le_total s.start.toNat t.start.toNat with h | h
    · rw [Nat.min_eq_left h]
      exact hs.start
    · rw [Nat.min_eq_right h]
      exact ht.start
  · rw [merge_stop]
    rcases Nat.le_total s.stop.toNat t.stop.toNat with h | h
    · rw [Nat.max_eq_right h]
      exact ht.stop
    · rw [Nat.max_eq_left h]
      exact hs.stop
  · rw [merge_start, merge_stop]
    exact Nat.le_trans (Nat.min_le_left _ _) (Nat.le_trans hs.le (Nat.le_max_left _ _))

namespace Cursor

theorem In.reaches {d : Cursor} (h : c.In text) (hd : c.Reaches d) : d.In text := h.trans hd

theorem In.spanFrom (hshort : byteCount text < 4294967296) (h : c.In text) {start : Cursor}
    (hstart : start.In text) (hreaches : start.Reaches c) :
    (c.spanFrom start.offset).Within text :=
  Span.within_ofRange hshort hstart.boundary h.boundary hreaches.offset_le

theorem In.peekSpan (hshort : byteCount text < 4294967296) (h : c.In text) :
    c.peekSpan.Within text := by
  refine Span.within_ofRange hshort h.boundary ?_ (Nat.le_add_right _ _)
  cases hpeek : c.peek? with
  | none => exact h.boundary
  | some x =>
      obtain ⟨d, hd⟩ := rest_of_peek? hpeek
      exact (h.reaches (reaches_append (p := [x]) hd)).boundary

end Cursor

end

end MatrixScript
