import Mathlib.Data.List.GetD
import Mathlib.Data.List.SplitLengths
import MatrixScript.Proofs.Reading.Trees

/-!
# Kinds with their children replaced

A kind of node can be taken apart into its label and the list of its children, and put together
again from these. Whatever a traversal does to the children, it does to the list of them, one after
another, and then puts the kind together.
-/

namespace MatrixScript

section Traversals

variable {α β γ : Type} {m : Type → Type} [Monad m] [LawfulMonad m]

/-- What comes after a traversal may count on the length of the list that it gives. -/
theorem mapM_bind_congr {g : α → m β} {xs : List α} {next next' : List β → m γ}
    (h : ∀ bs, bs.length = xs.length → next bs = next' bs) :
    xs.mapM g >>= next = xs.mapM g >>= next' := by
  induction xs generalizing next next' with
  | nil => simpa using h [] rfl
  | cons x xs ih =>
      simp only [List.mapM_cons, bind_assoc, pure_bind]
      refine congrArg (g x >>= ·) (funext fun b => ih fun bs hbs => h (b :: bs) ?_)
      rw [List.length_cons, List.length_cons, hbs]

theorem mapM_rows (g : α → m β) (rows : List (List α)) :
    rows.mapM (·.mapM g) = (rows.map List.length).splitLengths <$> rows.flatten.mapM g := by
  induction rows with
  | nil => simp
  | cons row rows ih =>
      rw [List.mapM_cons, ih, List.flatten_cons, List.mapM_append]
      simp only [map_eq_pure_bind, bind_assoc, pure_bind]
      refine mapM_bind_congr fun bs hbs => ?_
      refine congrArg (rows.flatten.mapM g >>= ·) (funext fun cs => ?_)
      rw [List.map_cons, List.splitLengths_cons, ← hbs, List.take_left, List.drop_left]

theorem mapM_marked {δ : Type} (g : α → m β) (xs : List (α × δ)) :
    (xs.mapM fun x => do return (← g x.1, x.2))
      = (·.zip (xs.map (·.2))) <$> (xs.map (·.1)).mapM g := by
  induction xs with
  | nil => simp
  | cons x xs ih =>
      rw [List.mapM_cons, ih, List.map_cons, List.map_cons, List.mapM_cons]
      simp only [map_eq_pure_bind, bind_assoc, pure_bind, List.zip_cons_cons]

end Traversals

namespace NodeKind

variable {α β : Type} [Inhabited β]

/-- The kind with other children, of which there have to be as many. -/
def refill (k : NodeKind α) (children : List β) : NodeKind β :=
  let child (i : Nat) : β := children.getD i default
  match k with
  | real x => real x
  | imaginary x => imaginary x
  | text s => text s
  | name s => name s
  | last => last
  | everything => everything
  | unary op _ => unary op (child 0)
  | binary op _ _ => binary op (child 0) (child 1)
  | range _ _ => range (child 0) (child 1)
  | assign _ op _ => assign (child 0) op (child 1)
  | call _ _ => call (child 0) children.tail
  | matrix rows => matrix ((rows.map List.length).splitLengths children)
  | tuple _ => tuple children
  | lambda params _ => lambda params (child 0)
  | block statements => block (children.zip (statements.map (·.2)))
  | branch _ _ _ => branch (child 0) (child 1) (child 2)
  | whileLoop _ _ => whileLoop (child 0) (child 1)
  | forLoop _ _ _ _ => forLoop (child 0) (child 1) (child 2) (child 3)

/-- A traversal of a kind is one of the list of its children. -/
theorem mapM_eq_refill {m : Type → Type} [Monad m] [LawfulMonad m] (g : α → m β) (k : NodeKind α) :
    k.mapM g = k.refill <$> k.children.mapM g := by
  cases k with
  | call f args =>
      rw [children_call, List.mapM_cons]
      simp only [mapM, map_eq_pure_bind, bind_assoc, pure_bind]
      rfl
  | matrix rows =>
      rw [children_matrix, mapM, mapM_rows, ← map_eq_pure_bind, ← comp_map]
      rfl
  | tuple items =>
      rw [children_tuple, mapM, ← map_eq_pure_bind]
      rfl
  | block statements =>
      rw [children_block, mapM, mapM_marked, ← map_eq_pure_bind, ← comp_map]
      rfl
  | _ => simp [mapM, children, slots, refill]

/-- The label is all of the kind that matters. -/
theorem refill_label (k : NodeKind α) (cs : List β) : k.label.refill cs = k.refill cs := by
  cases k with
  | call f args => simp [label, refill]
  | matrix rows => simp [label, refill, Function.comp_def]
  | tuple items => simp [label, refill]
  | block statements => simp [label, refill, Function.comp_def]
  | _ => rfl

theorem eq_name_of_refill {k : NodeKind α} {cs : List β} {s : String}
    (h : k.refill cs = name s) : k = name s := by
  cases k with
  | name t =>
      cases h
      rfl
  | _ => cases h

theorem length_children_label (k : NodeKind α) : k.label.children.length = k.children.length := by
  rw [label, children_map, List.length_map]

theorem map_range_getD {cs : List β} {n : Nat} (h : cs.length = n) :
    (List.range n).map (cs.getD · default) = cs := by
  subst h
  refine List.ext_getElem (by rw [List.length_map, List.length_range]) fun i hi hi' => ?_
  rw [List.getElem_map, List.getElem_range, List.getD_eq_getElem cs default hi']

theorem children_refill {k : NodeKind α} {cs : List β} (h : cs.length = k.children.length) :
    (k.refill cs).children = cs := by
  cases k with
  | call f args =>
      rw [children_call] at h
      obtain ⟨c, cs, rfl⟩ := List.exists_cons_of_length_eq_add_one h
      exact children_call c cs
  | matrix rows =>
      rw [children_matrix, List.length_flatten] at h
      exact (children_matrix _).trans (List.flatten_splitLengths _ _ h.le)
  | tuple items => exact children_tuple cs
  | block statements =>
      rw [children_block, List.length_map] at h
      refine (children_block _).trans (List.map_fst_zip ?_)
      rw [List.length_map, h]
  | _ => exact map_range_getD h

theorem label_refill {k : NodeKind α} {cs : List β} (h : cs.length = k.children.length) :
    (k.refill cs).label = k.label := by
  cases k with
  | call f args =>
      rw [children_call] at h
      obtain ⟨c, cs, rfl⟩ := List.exists_cons_of_length_eq_add_one h
      rw [List.length_cons, List.length_cons, Nat.add_right_cancel_iff] at h
      simp [label, refill, List.map_const', h]
  | matrix rows =>
      rw [children_matrix, List.length_flatten] at h
      have hlengths := List.map_splitLengths_length cs (rows.map List.length) h.ge
      have hunits {δ : Type} (xss : List (List δ)) : xss.map (·.map fun _ => ())
          = (xss.map List.length).map (List.replicate · ()) := by
        simp [Function.comp_def, List.map_const']
      rw [label, label, refill, map_matrix, map_matrix, hunits, hunits, hlengths]
  | tuple items =>
      rw [children_tuple] at h
      simp [label, refill, List.map_const', h]
  | block statements =>
      rw [children_block, List.length_map] at h
      have hmarks : (cs.zip (statements.map (·.2))).map (·.2) = statements.map (·.2) :=
        List.map_snd_zip (by rw [List.length_map, h])
      have hunits {δ : Type} (xs : List (δ × Bool)) :
          xs.map (fun x => ((), x.2)) = (xs.map (·.2)).map ((), ·) := by
        simp [Function.comp_def]
      rw [label, label, refill, map_block, map_block, hunits, hunits, hmarks]
  | _ => rfl

end NodeKind

end MatrixScript
