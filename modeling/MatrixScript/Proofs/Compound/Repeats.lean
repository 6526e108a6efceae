import MatrixScript.Proofs.Alike.Trees
import MatrixScript.Proofs.Compound.Runs

/-!
# Expressions evaluated again

An expression that leaves the variables as they are gives the same from them each time, but for the
numbers of functions: with more fuel, after other expressions of this kind, and in another place
where the same tree stands.
-/

namespace MatrixScript

open Evaluation

/-- Where the tree stands, its evaluation leaves the variables as they are, if this is what can be
read. -/
def Setting.LeavesAlone (s : Setting) (w : View) (t : Tree) : Prop :=
  ∀ id, s.forest.Spells id t → ∀ fuel m v left, m.view = w →
    (evaluate fuel s.untimed id).run.run m = (.ok v, left) → left.environment = w.environment

/-- The same for the arguments that index a value. -/
def Setting.IndicesLeaveAlone (s : Setting) (w : View) (target : Value) (ts : List Tree) : Prop :=
  ∀ ids, List.Forall₂ s.forest.Spells ids ts → ∀ fuel m args left, m.view = w →
    (s.untimed.indexArguments (evaluate fuel) target ids).run.run m = (.ok args, left) →
    left.environment = w.environment

/-! ### Expressions that leave the variables as they are -/

namespace Evaluation

variable {α β γ : Type} {x : Evaluation α} {w : View}

theorem Keeps.of_pure (a : α) : (pure a : Evaluation α).Keeps w := by
  intro m b left hm hrun
  obtain ⟨-, rfl⟩ := run_pure_eq_ok_iff.mp hrun
  exact hm

theorem Keeps.of_throw (stop : Stop) : (throw stop : Evaluation α).Keeps w :=
  fun _ _ _ _ hrun => by cases hrun

theorem Keeps.bind {f : α → Evaluation β} (h : x.Keeps w) (hf : ∀ a, (f a).Keeps w) :
    (x >>= f).Keeps w := by
  intro m b left hm hrun
  obtain ⟨a, m₁, hx, hrest⟩ := run_bind_eq_ok_iff.mp hrun
  exact hf a m₁ b left (h m a m₁ hm hx) hrest

theorem Keeps.of_mapM {f : γ → Evaluation β} {cs : List γ} (h : ∀ c ∈ cs, (f c).Keeps w) :
    (cs.mapM f).Keeps w := by
  induction cs with
  | nil => exact Keeps.of_pure []
  | cons c cs ih =>
      obtain ⟨hc, hcs⟩ := List.forall_mem_cons.mp h
      rw [List.mapM_cons]
      exact hc.bind fun b => (ih hcs).bind fun bs => Keeps.of_pure (b :: bs)

theorem Keeps.withExtent {extent : Option Nat}
    (h : x.Keeps { w with extents := extent :: w.extents }) : (x.withExtent extent).Keeps w := by
  rintro m a left rfl hrun
  obtain ⟨inner, hinner, rfl⟩ := run_withExtent_eq_ok_iff.mp hrun
  obtain ⟨henvironment, hextents⟩ := View.mk.inj (h _ a inner rfl hinner)
  exact congrArg₂ View.mk henvironment (congrArg List.tail hextents)

end Evaluation

namespace Setting

variable {s : Setting} {w : View} {t : Tree} {ts : List Tree}

theorem LeavesAlone.keeps (h : s.LeavesAlone w t) {id : NodeId} (hid : s.forest.Spells id t)
    (fuel : Nat) : (evaluate fuel s.untimed id).Keeps w := by
  rintro m v left rfl hrun
  have hextents := extents_evaluate s.untimed fuel m id
  rw [hrun] at hextents
  exact congrArg₂ View.mk (h id hid fuel m v left rfl hrun) hextents

theorem IndicesLeaveAlone.keeps {target : Value} (h : s.IndicesLeaveAlone w target ts)
    {ids : List NodeId} (hids : List.Forall₂ s.forest.Spells ids ts) (fuel : Nat) :
    (s.untimed.indexArguments (evaluate fuel) target ids).Keeps w := by
  rintro m args left rfl hrun
  have hextents := extents_indexArguments s.untimed fuel m target ids
  rw [hrun] at hextents
  exact congrArg₂ View.mk (h ids hids fuel m args left rfl hrun) hextents

/-- What a node that is there gives decides. -/
theorem leavesAlone_of_kind {k : NodeKind Tree}
    (h : ∀ kind, kind.label = k.label → List.Forall₂ s.forest.Spells kind.children k.children →
      ∀ fuel, (s.untimed.value (evaluate fuel) fuel kind).Keeps w) : s.LeavesAlone w (.of k) := by
  rintro id hid fuel m v left rfl hrun
  obtain ⟨kind, hkind, hlabel, hchildren⟩ := hid.children
  cases fuel with
  | zero => cases hrun
  | succ fuel =>
      have hvalue := (run_evaluate_eq_ok_iff (s := s.untimed) hkind).mp hrun
      exact (View.mk.inj (h kind hlabel hchildren fuel m v left rfl hvalue)).1

theorem leavesAlone_real (x : Double) : s.LeavesAlone w (.of (.real x)) := by
  refine leavesAlone_of_kind fun kind hlabel _ fuel => ?_
  cases kind with
  | real y => exact Keeps.of_pure _
  | _ => cases hlabel

/-- A function is made from what the variables are then. -/
theorem leavesAlone_lambda (params : List String) : s.LeavesAlone w (.of (.lambda params t)) := by
  refine leavesAlone_of_kind fun kind hlabel _ fuel => ?_
  cases kind with
  | lambda names body =>
      change (s.untimed.close names body).Keeps w
      unfold close
      split
      · exact Keeps.of_throw _
      · rintro m v left rfl hrun
        cases hrun
        rfl
  | _ => cases hlabel

/-- A library function that has nothing to do with the variables. -/
theorem leavesAlone_call {name : String} (hname : w.environment.lookup name = none)
    (hfunction : s.library.hasFunction name = true)
    (hpure : ∀ args e, ((s.library.call name args).run.run e).2 = e)
    (hargs : ∀ t ∈ ts, s.LeavesAlone w t) :
    s.LeavesAlone w (.of (.call (.of (.name name)) ts)) := by
  refine leavesAlone_of_kind fun kind hlabel hchildren fuel => ?_
  cases kind with
  | call callee ids =>
      rw [NodeKind.children_call, NodeKind.children_call] at hchildren
      obtain ⟨hcallee, hids⟩ := List.forall₂_cons.mp hchildren
      have hcall : s.untimed.callNamed (evaluate fuel) name ids = (do
          let v ← visible? name
          match v with
          | some target => s.untimed.apply (evaluate fuel) target ids
          | none =>
            let args ← s.untimed.arguments (evaluate fuel) ids
            native (s.library.call name args)) := by
        unfold callNamed
        refine congrArg (_ >>= ·) (funext fun v => ?_)
        cases v with
        | some target => rfl
        | none => exact if_pos hfunction
      have hkind : s.untimed.kind callee = pure (.name name) := kind_eq_pure hcallee.kind_name
      change (s.untimed.call (evaluate fuel) callee ids).Keeps w
      rw [call, hkind, pure_bind]
      dsimp only
      rw [hcall]
      rintro m v left rfl hrun
      have hvisible : (visible? name).run.run m = (.ok none, m) :=
        congrArg (fun v => (Except.ok v, m)) hname
      rw [run_bind_of_ok hvisible] at hrun
      refine Evaluation.Keeps.bind (Keeps.of_mapM fun id hid => ?_) (fun args => ?_) m v left rfl hrun
      · obtain ⟨k, hk, rfl⟩ := List.mem_iff_getElem.mp hid
        exact (hargs _ (List.getElem_mem (hids.length_eq ▸ hk))).keeps (hids.get hk _) fuel
      · rintro m a left hm hrun
        obtain rfl : left = { m with
            environment := ((s.library.call name args).run.run m.environment).2 } :=
          (congrArg Prod.snd hrun).symm
        rw [hpure]
        exact hm
  | _ => cases hlabel

/-- Index arguments that leave the variables as they are, whatever `end` stands for. -/
theorem indicesLeaveAlone {target : Value}
    (h : ∀ t ∈ ts, ∀ extents, s.LeavesAlone { w with extents } t) :
    s.IndicesLeaveAlone w target ts := by
  rintro ids hids fuel m args left rfl hrun
  refine (View.mk.inj (Keeps.of_mapM (fun arg harg => ?_) m args left rfl hrun)).1
  obtain ⟨k, hk, rfl⟩ := List.mem_iff_getElem.mp harg
  rw [List.getElem_zipIdx]
  rw [List.length_zipIdx] at hk
  have hspelled := hids.get hk (hids.length_eq ▸ hk)
  have hkind : (s.untimed.kind ids[k]).Keeps m.view := by
    unfold Setting.kind Setting.node
    split
    · exact (Keeps.of_pure _).bind fun node => Keeps.of_pure node.kind
    · exact (Keeps.of_throw _).bind fun node => Keeps.of_pure node.kind
  refine hkind.bind fun kind => ?_
  split
  · exact Keeps.of_pure IndexArg.all
  · refine Evaluation.Keeps.bind (Keeps.withExtent ?_) fun v => Keeps.of_pure (IndexArg.value v)
    exact (h _ (List.getElem_mem _) _).keeps hspelled fuel

end Setting

/-! ### Giving the same again -/

namespace Evaluation

variable {α : Type} {w : View} {Q : α → α → Prop} {x x' : Nat → Evaluation α} {a b : α}

/-- With some fuel the evaluation can give this from what it reads. -/
def Gives (w : View) (x : Nat → Evaluation α) (a : α) : Prop :=
  ∃ fuel m left, m.view = w ∧ (x fuel).run.run m = (.ok a, left)

/-- The evaluation leaves what it reads as it is, and what it gives from that, the other one gives
as well, up to `Q`: each time, and with as much fuel. -/
structure Carries (w : View) (Q : α → α → Prop) (x x' : Nat → Evaluation α) : Prop where
  keeps : ∀ fuel, (x fuel).Keeps w
  completes : ∀ {fuel fuel' m a left}, fuel ≤ fuel' → m.view = w →
    (x fuel).run.run m = (.ok a, left) → Completes w (x' fuel') fun b => Q a b

/-- Two evaluations that give the same from what they read and go on doing so. -/
structure Corresponds (w : View) (Q : α → α → Prop) (x x' : Nat → Evaluation α) :
    Prop where
  steady : Carries w Q x x
  steady' : Carries w Q x' x'
  there : Carries w Q x x'
  back : Carries w Q x' x

namespace Carries

variable (h : Carries w Q x x')
include h

theorem related {fuel fuel' : Nat} (hle : fuel ≤ fuel') {m left m' left' : Machine}
    (hm : m.view = w) (hrun : (x fuel).run.run m = (.ok a, left))
    (hm' : m'.view = w) (hrun' : (x' fuel').run.run m' = (.ok b, left')) : Q a b := by
  obtain ⟨_, _, hcarried, -, hQ⟩ := h.completes hle hm hrun m' hm'
  rw [hrun'] at hcarried
  cases hcarried
  exact hQ

theorem gives (hgives : Gives w x a) : ∃ b, Gives w x' b ∧ Q a b := by
  obtain ⟨fuel, m, left, hm, hrun⟩ := hgives
  obtain ⟨b, left', hrun', -, hQ⟩ := h.completes le_rfl hm hrun m hm
  exact ⟨b, ⟨fuel, m, left', hm, hrun'⟩, hQ⟩

end Carries

/-- With more fuel the first evaluation goes the same way, and the second one follows it. -/
theorem carries_of_follows (h : ∀ fuel, Follows Q (x fuel) (x' fuel))
    (hmore : ∀ {fuel fuel'}, fuel ≤ fuel' → Truncates (x fuel) (x fuel'))
    (hkeeps : ∀ fuel, (x fuel).Keeps w) : Carries w Q x x' where
  keeps := hkeeps
  completes := by
    intro fuel fuel' m a left hle hm hrun
    have hlonger := hmore hle m m.checks
    rw [hrun] at hlonger
    obtain ⟨checks', hrun'⟩ := hlonger.resolve_left nofun
    exact (h fuel' w (hkeeps fuel')).2 m a _ hm hrun'

/-- Evaluations that follow each other and themselves. -/
theorem corresponds_of_follows (hself : ∀ fuel, Follows Q (x fuel) (x fuel))
    (hself' : ∀ fuel, Follows Q (x' fuel) (x' fuel)) (hthere : ∀ fuel, Follows Q (x fuel) (x' fuel))
    (hback : ∀ fuel, Follows Q (x' fuel) (x fuel))
    (hmore : ∀ {fuel fuel'}, fuel ≤ fuel' → Truncates (x fuel) (x fuel'))
    (hmore' : ∀ {fuel fuel'}, fuel ≤ fuel' → Truncates (x' fuel) (x' fuel'))
    (hkeeps : ∀ fuel, (x fuel).Keeps w) : Corresponds w Q x x' :=
  have hkeeps' := fun fuel => (hthere fuel w (hkeeps fuel)).1
  { steady := carries_of_follows hself hmore hkeeps
    steady' := carries_of_follows hself' hmore' hkeeps'
    there := carries_of_follows hthere hmore hkeeps
    back := carries_of_follows hback hmore' hkeeps' }

end Evaluation

namespace Setting

variable {s : Setting} {f : Forest} {id id' : NodeId} {t : Tree} {w : View}

section Spelled

variable (hlibrary : s.library.Blind) (hs : s.forest.WellLinked) (hf : f.WellLinked)
  (ht : t ≠ .absent) (h : s.forest.Spells id t) (h' : f.Spells id' t)
include hlibrary hs hf ht h h'

theorem corresponds_evaluate (hkeeps : ∀ fuel, (evaluate fuel s.untimed id).Keeps w) :
    Corresponds w (Value.Alike ShownSame) (fun fuel => evaluate fuel s.untimed id)
      fun fuel => evaluate fuel { s.untimed with forest := f } id' := by
  let other : Setting := { s with forest := f }
  exact corresponds_of_follows (follows_evaluate hlibrary hs hs ht h h)
    (follows_evaluate (s := other) hlibrary hf hf ht h' h')
    (follows_evaluate hlibrary hs hf ht h h')
    (follows_evaluate (s := other) hlibrary hf hs ht h' h)
    (fun hle => truncates_evaluate hle s.untimed id)
    (fun hle => truncates_evaluate hle other.untimed id') hkeeps

/-- The same for the arguments of a call. -/
theorem corresponds_indexArguments {callee callee' : NodeId} {ids ids' : List NodeId}
    (hkind : s.forest.kind? id = some (.call callee ids))
    (hkind' : f.kind? id' = some (.call callee' ids')) (target : Value)
    (hkeeps : ∀ fuel, (s.untimed.indexArguments (evaluate fuel) target ids).Keeps w) :
    Corresponds w (List.Forall₂ (IndexArg.Alike ShownSame))
      (fun fuel => s.untimed.indexArguments (evaluate fuel) target ids)
      fun fuel =>
        Setting.indexArguments { s.untimed with forest := f } (evaluate fuel) target ids' := by
  let other : Setting := { s with forest := f }
  exact corresponds_of_follows
    (follows_indexArguments hlibrary hs hs ht h h hkind hkind target)
    (follows_indexArguments (s := other) hlibrary hf hf ht h' h' hkind' hkind' target)
    (follows_indexArguments hlibrary hs hf ht h h' hkind hkind' target)
    (follows_indexArguments (s := other) hlibrary hf hs ht h' h hkind' hkind target)
    (fun hle => truncates_indexArguments (s := s.untimed) (truncates_evaluate hle) target ids)
    (fun hle => truncates_indexArguments (s := other.untimed) (truncates_evaluate hle) target ids')
    hkeeps

end Spelled

end Setting

end MatrixScript
