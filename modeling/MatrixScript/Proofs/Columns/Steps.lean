import MatrixScript.Proofs.Columns.Places

/-!
# Steps in a row

A step of reading is followed if, wherever it succeeds in an element, it succeeds where the element
stands in a row and leaves there what it leaves in the element. It starts and ends behind so many
open brackets, and the text ahead is compact at that depth. What is known of the text ahead where
the step ends is asked for, and what was known of it where the step began is given: reading goes to
the right, so a delimiter that is still ahead later was ahead before.
-/

namespace MatrixScript

open Reading Grammar

/-- A reader that stands behind so many open brackets of an element. The only operator that it can
have been offered is a multiplication, at the end of some operand. -/
structure Reader.At (r : Reader) (depth : Nat) : Prop where
  compact : Compact (.code depth) r.cursor.rest
  begun : 0 < r.cursor.offset
  offered : ∀ q ∈ r.premise, q.1 = ['*'] ∧ q.2 ≤ r.cursor.offset

namespace Reader.At

variable {r : Reader} {depth : Nat} {c : Cursor}

theorem movedTo {i j : Nat} (h : r.At i) (hreaches : r.cursor.Reaches c)
    (hcompact : Compact (.code j) c.rest) : (r.movedTo c).At j where
  compact := hcompact
  begun := Nat.lt_of_lt_of_le h.begun hreaches.offset_le
  offered q hq := ⟨(h.offered q hq).1, Nat.le_trans (h.offered q hq).2 hreaches.offset_le⟩

theorem withNode (h : r.At depth) (kind : NodeKind NodeId) (span : Span) :
    (r.withNode kind span).At depth := ⟨h.compact, h.begun, h.offered⟩

theorem afterOperator (h : r.At depth) (kind : NodeKind NodeId) (span : Span) :
    (r.afterOperator kind span).At depth := ⟨h.compact, h.begun, h.offered⟩

theorem skips (h : r.At depth) {flags : Flags} {b : Bool}
    (hskips : standard.Skips flags b r.cursor c) : (r.movedTo c).At depth :=
  h.movedTo hskips.reaches (h.compact.skips hskips).1

end Reader.At

theorem Compact.rest_next {depth : Nat} {c : Cursor} {x : Char} (h : Compact (.code depth) c.rest)
    (hx : c.peek? = some x) : Compact ((Scan.code depth).next x) c.next.rest := by
  obtain ⟨w, hw⟩ := Cursor.rest_of_peek? hx
  rw [hw] at h
  rw [Cursor.next_cons hw]
  exact h.next

/-- Fillers close nothing. -/
theorem Within.of_skips {depth : Nat} {flags : Flags} {b : Bool} {c d : Cursor} (h : Within c)
    (hcompact : Compact (.code depth) c.rest) (hskips : standard.Skips flags b c d) :
    Within d := by
  obtain ⟨w, hw, x, hx, hcloser⟩ := h
  obtain ⟨-, p, hp, hfillers⟩ := hcompact.skips hskips
  have hbracket : ']' ∉ p := fun hmem => absurd (hfillers ']' hmem) (by decide)
  have hx' : x ∉ p := by
    have hall : ∀ y ∈ closers, y ∉ fillers := by decide
    exact fun hmem => hall x hcloser (hfillers x hmem)
  rw [hw] at hp
  rcases List.append_eq_append_iff.mp hp with ⟨u, rfl, hu⟩ | ⟨u, rfl, hu⟩
  · rcases u with _ | ⟨y, u⟩
    · rw [List.append_nil] at hx'
      exact absurd hx hx'
    · rw [List.cons_append, List.cons.injEq] at hu
      exact absurd (hu.1 ▸ List.mem_append_right w List.mem_cons_self) hbracket
  · exact ⟨u, hu, x, (List.mem_append.mp hx).resolve_left hx', hcloser⟩

theorem Zone.Open.of_skips {z : Zone} {mode : Mode} {depth : Nat} {flags : Flags} {b : Bool}
    {c d : Cursor} (h : z.Open c) (hz : z.Admits mode depth)
    (hcompact : Compact (.code depth) c.rest) (hskips : standard.Skips flags b c d) :
    z.Open d := by
  cases z with
  | inner => exact Within.of_skips h hcompact hskips
  | outer =>
      obtain ⟨-, rfl⟩ := hz
      rwa [(hskips.eq_of_settled (hcompact.settled flags)).2]

namespace RowPlace

open Site (reader_movedTo)

variable {E : RowPlace} {α β : Type} [Numbered α] [Numbered β] {P P' Q R : Cursor → Prop}
  {f f' : Reading α} {g g' : α → Reading β} {r : Reader} {i j k : Nat}

/-- A step that begins behind `i` open brackets of the element and ends behind `j`. -/
abbrev Follows (E : RowPlace) (i j : Nat) (P Q : Cursor → Prop) (f f' : Reading α) (r : Reader) :
    Prop :=
  E.toSite.Follows (·.At i) (·.At j) P Q f f' r

namespace Follows

/-- A step that is followed to wherever it ends. -/
theorem bind_fenced {z : Zone} (hf : E.Follows i j P Fenced f f' r)
    (hg : ∀ a r₁, f r = .ok (a, r₁) →
      E.Follows j k z.Open R (g a) (g' (Numbered.shift E.before.size a)) r₁) :
    E.Follows i k P R (f >>= g) (f' >>= g') r :=
  .bind (hf.weaken fun _ => Zone.Open.fenced) hg

theorem rounds_bind {g g' : Nat → Reading β}
    (hg : ∀ n n', n ≤ n' → E.Follows i j P Q (g n) (g' n') r) :
    E.Follows i j P Q (Surroundings.rounds >>= g) (Surroundings.rounds >>= g') r :=
  Site.Follows.rounds_bind (length_cursor_le r.cursor) hg

theorem moved {c : Cursor} {f f' g g' : Reading β} (h : E.Follows j k P Q g g' (r.movedTo c))
    (hreaches : r.cursor.Reaches c)
    (hcompact : Compact (.code i) r.cursor.rest → Compact (.code j) c.rest)
    (hf : f r = g (r.movedTo c))
    (hf' : P c → P' r.cursor ∧ f' (E.reader r) = g' (E.reader (r.movedTo c))) :
    E.Follows i k P' Q f f' r :=
  Site.Follows.moved h hreaches (fun hat => hat.movedTo hreaches (hcompact hat.compact)) hf hf'

/-- A step that first passes a known beginning of the text. -/
theorem advance_bind {p v : List Char} (hp : r.cursor.rest = p ++ v) {f f' : Reading β}
    (h : E.Follows j k P Q f f' (r.movedTo (r.cursor.advance (byteCount p))))
    (hcompact : Compact (.code i) (p ++ v) → Compact (.code j) v)
    (hP : P (r.cursor.advance (byteCount p)) →
      P' r.cursor ∧ Fenced (r.cursor.advance (byteCount p))) :
    E.Follows i k P' Q (advance (byteCount p) >>= fun _ => f)
      (advance (byteCount p) >>= fun _ => f') r := by
  refine Site.Follows.advance_bind h (fun hat => ?_) fun hhere => ?_
  · refine hat.movedTo (r.cursor.reaches_advance _) ?_
    rw [Cursor.advance_append hp]
    exact hcompact (hp ▸ hat.compact)
  · exact (hP hhere).imp_right fun hfenced => (cursor_advance hp hfenced).2

theorem next_bind {x : Char} (hx : r.cursor.peek? = some x)
    (hscan : (Scan.code i).next x = .code j) {f f' : Reading β}
    (h : E.Follows j k P Q f f' (r.movedTo r.cursor.next))
    (hP : P r.cursor.next → P' r.cursor ∧ Fenced r.cursor.next) :
    E.Follows i k P' Q (next >>= fun _ => f) (next >>= fun _ => f') r := by
  refine Site.Follows.next_bind h (fun hat => ?_) fun hhere => ?_
  · exact hat.movedTo r.cursor.reaches_next (hscan ▸ hat.compact.rest_next hx)
  · exact (hP hhere).imp_right fun hfenced => (cursor_next hx hfenced).2

theorem peek_bind {g g' : Option Char → Reading β}
    (h : E.Follows i j Within Q (g r.cursor.peek?) (g' r.cursor.peek?) r) :
    E.Follows i j Within Q (peek? >>= g) (peek? >>= g') r :=
  Site.Follows.peek_bind peek?_within h

theorem allocFrom (kind : NodeKind NodeId) (start : Nat) :
    E.Follows i i Q Q (Reading.allocFrom kind start)
      (Reading.allocFrom (Numbered.shift E.before.size kind) (start + E.bytes)) r :=
  Site.Follows.allocFrom (fun kind span hat => hat.withNode kind span) kind start

theorem allocFrom_of {kind kind' : NodeKind NodeId} {start : Nat}
    (hkind : Numbered.shift E.before.size kind = kind') :
    E.Follows i i Q Q (Reading.allocFrom kind start)
      (Reading.allocFrom kind' (start + E.bytes)) r :=
  hkind ▸ allocFrom kind start

/-- A closing delimiter that is passed at once, or else what has to end by passing one. -/
theorem eat_or {x : Char} (hcloser : x ∈ closers) (hscan : (Scan.code i).next x = .code j) (a : α)
    (hf : E.Follows i j Within Fenced f f' r) :
    E.Follows i j Within Fenced (Reading.eat x >>= fun b => if b then Pure.pure a else f)
      (Reading.eat x >>= fun b => if b then Pure.pure (Numbered.shift E.before.size a) else f')
      r :=
  Site.Follows.eat_bind peek?_within
    (fun hx => Follows.next_bind (P := Fenced) hx hscan (.pure a)
      fun hfenced => ⟨within_of_peek? hx hcloser hfenced, hfenced⟩)
    fun _ => hf

/-- Passing a comma or not, with a delimiter still ahead. -/
theorem eat {x : Char} (hx : x ∉ delimiters) : E.Follows i i Within Within (eat x) (eat x) r := by
  have heat : E.Follows i i Within Within (Reading.eat x >>= Pure.pure)
      (Reading.eat x >>= Pure.pure) r :=
    Site.Follows.eat_bind peek?_within
      (fun hc => Follows.next_bind (P := Within) hc (Scan.next_of_not_mem hx i) (.pure true)
        fun hwithin => ⟨hwithin.of_reaches r.cursor.reaches_next, hwithin.fenced⟩)
      fun _ => .pure false
  rwa [bind_pure] at heat

end Follows

end RowPlace

end MatrixScript
