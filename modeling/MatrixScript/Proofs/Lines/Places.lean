import MatrixScript.Proofs.Lines.Trivia
import MatrixScript.Proofs.Places

/-!
# A text behind another one

A program can stand behind another one, and more lines can follow behind it. An operator that was
offered before the text began is never understood in it, since it was offered further to the left.
What stands behind a place of the text does not matter there, unless the text ends there or ends in
a part of what continues a line.
-/

namespace MatrixScript

open Reading Grammar

/-- Where a text stands within a longer one, behind which more lines can follow, whose first word is
not `else`. -/
structure Place extends Site id where
  stale : ∀ q ∈ earlier, q.2 < bytes
  endsLine : EndsLine tail
  passable : tail ≠ [] → ∀ n, ∃ d, Grammar.Arrives ⟨n, tail⟩ d
    ∧ startsWithWord ['e', 'l', 's', 'e'] d.rest = false

namespace Place

/-- Whether what stands behind the text does not matter at a cursor. -/
def Clear (E : Place) (last : Bool) (c : Cursor) : Prop := E.tail = [] ∨ Finished last c

variable {E : Place} {c d e : Cursor} {last b : Bool} {flags : Flags} {x : Char} {r : Reader}

theorem cursor_eq (E : Place) (c : Cursor) :
    E.cursor c = ⟨c.offset + E.bytes, c.rest ++ E.tail⟩ := rfl

/-! ### Cursors -/

theorem peek?_of_some (hc : c.peek? = some x) : (E.cursor c).peek? = some x := by
  obtain ⟨w, hw⟩ := Cursor.rest_of_peek? hc
  exact Cursor.peek?_cons (show (E.cursor c).rest = x :: (w ++ E.tail) by rw [cursor_eq, hw]; rfl)

theorem cursor_next (hc : c.peek? = some x) : E.cursor c.next = (E.cursor c).next := by
  obtain ⟨w, hw⟩ := Cursor.rest_of_peek? hc
  have hw' : (E.cursor c).rest = x :: (w ++ E.tail) := by rw [cursor_eq, hw]; rfl
  rw [Cursor.next_cons hw, Cursor.next_cons hw']
  simp only [cursor_eq, Cursor.mk.injEq, and_true]
  omega

theorem cursor_advance_append {p w : List Char} (hp : c.rest = p ++ w) :
    E.cursor (c.advance (byteCount p)) = (E.cursor c).advance (byteCount p) := by
  have hp' : (E.cursor c).rest = p ++ (w ++ E.tail) := by rw [cursor_eq, hp, List.append_assoc]
  rw [Cursor.advance_append hp, Cursor.advance_append hp']
  simp only [cursor_eq, Cursor.mk.injEq, and_true]
  omega

theorem cursor_advance {n : Nat} (hn : n ≤ byteCount c.rest) :
    E.cursor (c.advance n) = (E.cursor c).advance n := by
  obtain ⟨p, w, hp, hdrop⟩ := dropBytes_split hn
  have hdrop' := hdrop []
  rw [List.append_nil, List.append_nil] at hdrop'
  rw [hp] at hdrop hdrop'
  simp only [Cursor.advance, cursor_eq, hp, hdrop, hdrop', byteCount_append, Cursor.mk.injEq, and_true]
  omega

theorem length_cursor_le (c : Cursor) : c.rest.length ≤ (E.cursor c).rest.length := by
  rw [cursor_eq, List.length_append]
  exact Nat.le_add_right _ _

/-! ### Where nothing depends on what stands behind -/

theorem Clear.mono (h : E.Clear false c) : E.Clear last c := h.imp_right fun h => h.mono

theorem clear_of_peek? (hc : c.peek? = some x) (hx : x ∉ triggers) : E.Clear last c :=
  .inr (finished_of_peek? hc hx)

theorem Clear.of_next (h : E.Clear last c.next) (hc : c.peek? = some '\n') : E.Clear last c :=
  h.imp_right (Finished.of_next hc)

theorem Clear.of_skips (h : E.Clear last d) (hskips : standard.Skips flags b c d) :
    E.Clear last c :=
  h.imp_right (Finished.of_skips hskips)

theorem Clear.behind (h : E.Clear last c) (hskips : standard.Skips flags b c d) :
    E.Clear last d :=
  h.imp_right fun hfinished => hfinished.behind hskips

theorem Clear.peek?_eq (h : E.Clear false c) : (E.cursor c).peek? = c.peek? := by
  rcases h with htail | hfinished
  · rw [Cursor.peek?, cursor_eq, htail, List.append_nil, Cursor.peek?]
  · rw [Cursor.peek?, cursor_eq, head?_append_of_ne_nil, Cursor.peek?]
    exact fun hnil => Bool.false_ne_true (hfinished.last_of_rest hnil)

/-- Where the text goes on, what stands behind it matters as little as before. -/
theorem Clear.arrives (h : E.Clear last c) (harrives : Arrives c d)
    (hinside : E.tail = [] ∨ d.rest ≠ []) : E.Clear false d := by
  rcases hinside with htail | hrest
  · exact .inl htail
  · refine h.imp_right fun hfinished => ?_
    obtain ⟨e, harrives', hdangling, -⟩ := hfinished
    rw [harrives.unique harrives'] at hdangling
    exact ⟨d, ⟨false, .stop harrives.choose_spec.settled⟩, hdangling, fun hnil => absurd hnil hrest⟩

/-- Where no transform applies in the text, none applies where it stands. -/
theorem Clear.settled (h : E.Clear last c) (hlast : last = true → flags.newlineSignificant = true)
    (hsettled : standard.Settled flags c) : standard.Settled flags (E.cursor c) := by
  rcases h with htail | hfinished
  · have hsame : E.cursor c = ⟨c.offset + E.bytes, c.rest⟩ := by rw [cursor_eq, htail, List.append_nil]
    rw [hsame]
    exact hsettled
  intro t ht
  cases hc : c.peek? with
  | some x =>
      rw [peek?_of_some hc] at ht
      have hstays := hsettled t (hc ▸ ht)
      exact Transform.stays_append ht hc hstays hfinished.not_dangling E.endsLine
  | none =>
      have hrest : c.rest = [] := List.head?_eq_none_iff.mp hc
      have hnewline := hlast (hfinished.last_of_rest hrest)
      have hrest' : (E.cursor c).rest = E.tail := by rw [cursor_eq, hrest, List.nil_append]
      rcases E.endsLine with htail | ⟨u, htail⟩
      · rw [Cursor.peek?, hrest', htail] at ht
        cases ht
      · rw [Cursor.peek?, hrest', htail] at ht
        cases ht
        exact .inl (if_pos hnewline)

theorem skips_trans {b' : Bool} (h : standard.Skips flags b c d)
    (h' : standard.Skips flags b' (E.cursor d) e) :
    standard.Skips flags (b || b') (E.cursor c) e := by
  induction h with
  | stop _ => rwa [Bool.false_or]
  | @pass c d t n more ht hn _ ih =>
      obtain ⟨x, hx, htransform⟩ := Option.bind_eq_some_iff.mp ht
      obtain ⟨p, w, hp, hbytes, hmore⟩ := Transform.elided_split htransform hx hn
      have hnext : E.cursor (c.advance (n + 1)) = (E.cursor c).advance (n + 1) := by
        rw [hbytes]
        exact cursor_advance_append hp
      have hafter := ih h'
      rw [hnext] at hafter
      have ht' : (E.cursor c).peek?.bind standard.transform? = some t := by
        rw [peek?_of_some hx]
        exact htransform
      exact .pass ht' (hmore E.tail E.endsLine) hafter

/-- The same text without meaning is passed. -/
theorem Clear.skips (h : E.Clear last d) (hlast : last = true → flags.newlineSignificant = true)
    (hskips : standard.Skips flags b c d) :
    standard.Skips flags b (E.cursor c) (E.cursor d) := by
  have hstop := skips_trans hskips (.stop (h.settled hlast hskips.settled))
  rwa [Bool.or_false] at hstop

/-! ### Steps where a text stands -/

open Site (reader_movedTo)

variable {α β : Type} [Numbered α] [Numbered β] {P P' Q R : Cursor → Prop} {f f' : Reading α}
  {g g' : α → Reading β}

/-- Of the reader of the text nothing needs to be known. -/
abbrev Follows (E : Place) (P Q : Cursor → Prop) (f f' : Reading α) (r : Reader) : Prop :=
  E.toSite.Follows (fun _ => True) (fun _ => True) P Q f f' r

namespace Follows

/-- A step that is followed to wherever it ends. -/
theorem bind_anywhere (hf : E.Follows P Anywhere f f' r) (hg : ∀ a r₁, f r = .ok (a, r₁) →
      E.Follows (E.Clear false) R (g a) (g' (Numbered.shift E.before.size a)) r₁) :
    E.Follows P R (f >>= g) (f' >>= g') r :=
  .bind (hf.weaken fun _ _ => trivial) hg

theorem rounds_bind {g g' : Nat → Reading β} (hg : ∀ k k', k ≤ k' → E.Follows P Q (g k) (g' k') r) :
    E.Follows P Q (Surroundings.rounds >>= g) (Surroundings.rounds >>= g') r :=
  Site.Follows.rounds_bind (length_cursor_le r.cursor) hg

theorem moved {c : Cursor} {f f' g g' : Reading β} (h : E.Follows P Q g g' (r.movedTo c))
    (hreaches : r.cursor.Reaches c) (hf : f r = g (r.movedTo c))
    (hf' : f' (E.reader r) = g' (E.reader (r.movedTo c))) (hP : P c → P' r.cursor) :
    E.Follows P' Q f f' r :=
  Site.Follows.moved h hreaches (fun _ => trivial) hf fun hhere => ⟨hP hhere, hf'⟩

theorem next_bind (hc : r.cursor.peek? = some x) {f f' : Reading β}
    (h : E.Follows P Q f f' (r.movedTo r.cursor.next)) (hP : P r.cursor.next → P' r.cursor) :
    E.Follows P' Q (next >>= fun _ => f) (next >>= fun _ => f') r :=
  Site.Follows.next_bind h (fun _ => trivial) fun hhere => ⟨hP hhere, cursor_next hc⟩

theorem advance_bind {n : Nat} (hn : n ≤ byteCount r.cursor.rest) {f f' : Reading β}
    (h : E.Follows P Q f f' (r.movedTo (r.cursor.advance n)))
    (hP : P (r.cursor.advance n) → P' r.cursor) :
    E.Follows P' Q (advance n >>= fun _ => f) (advance n >>= fun _ => f') r :=
  Site.Follows.advance_bind h (fun _ => trivial) fun hhere => ⟨hP hhere, cursor_advance hn⟩

theorem peek_bind {g g' : Option Char → Reading β}
    (h : E.Follows (E.Clear false) Q (g r.cursor.peek?) (g' r.cursor.peek?) r) :
    E.Follows (E.Clear false) Q (peek? >>= g) (peek? >>= g') r :=
  Site.Follows.peek_bind Clear.peek?_eq h

theorem allocFrom (kind : NodeKind NodeId) (start : Nat) :
    E.Follows Q Q (Reading.allocFrom kind start)
      (Reading.allocFrom (Numbered.shift E.before.size kind) (start + E.bytes)) r :=
  Site.Follows.allocFrom (fun _ _ _ => trivial) kind start

theorem allocFrom_of {kind kind' : NodeKind NodeId} {start : Nat}
    (hkind : Numbered.shift E.before.size kind = kind') :
    E.Follows Q Q (Reading.allocFrom kind start) (Reading.allocFrom kind' (start + E.bytes)) r :=
  hkind ▸ allocFrom kind start

/-- A delimiter that is passed at once, or else what has to end by passing one. -/
theorem eat_or (hx : x ∉ triggers) (a : α) (hf : E.Follows (E.Clear false) Anywhere f f' r) :
    E.Follows (E.Clear false) Anywhere (Reading.eat x >>= fun b => if b then Pure.pure a else f)
      (Reading.eat x >>= fun b => if b then Pure.pure (Numbered.shift E.before.size a) else f')
      r :=
  Site.Follows.eat_bind Clear.peek?_eq
    (fun hc => Follows.next_bind hc (.pure a) fun _ => clear_of_peek? hc hx) fun _ => hf

theorem eat (hx : x ∉ triggers) :
    E.Follows (E.Clear false) (E.Clear false) (eat x) (eat x) r := by
  have heat : E.Follows (E.Clear false) (E.Clear false) (Reading.eat x >>= Pure.pure)
      (Reading.eat x >>= Pure.pure) r :=
    Site.Follows.eat_bind Clear.peek?_eq
      (fun hc => Follows.next_bind hc (.pure true) fun _ => clear_of_peek? hc hx) fun _ => .pure false
  rwa [bind_pure] at heat

end Follows

end Place

end MatrixScript
