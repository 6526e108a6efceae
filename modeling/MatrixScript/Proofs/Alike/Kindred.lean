import Mathlib.Data.Set.Finite.Lattice
import MatrixScript.Proofs.Alike.Environments
import MatrixScript.Proofs.Bare
import MatrixScript.Proofs.Truncation

/-!
# Runs that differ in the numbers of functions

No program sees the serial number of a function or the spans in its body. So two runs from the same
variables that hand out different numbers, or that evaluate an expression from different places of a
text, give values that differ in nothing else. Two evaluations are kindred if they run alike in this
sense, whichever the numbers are. If one of them leaves the variables as they are, then so does the
other: a function that it made would have a new number. And where one of them gives something, the
other does so, whatever the next number is, since only the variables matter, and what `end` stands
for.
-/

namespace MatrixScript

open Evaluation

/-- The same parameters and the same body up to spans, under numbers that go together. -/
structure Lambda.Twins (N : Nat → Nat → Prop) (code code' : Lambda) : Prop where
  params : code'.params = code.params
  root : code'.root = code.root
  forest : code'.forest.bare = code.forest.bare
  numbers : ∃ n n', code.serial = some n ∧ code'.serial = some n' ∧ N n n'

/-- The same function, or two that differ in the spans and the numbers in them. -/
inductive Callable.Kin (N : Nat → Nat → Prop) : Callable → Callable → Prop where
  | same (f : Callable) : Kin N f f
  | twins {code code' : Lambda} {captures captures' : List Capture} (hcode : code.Twins N code')
      (hcaptures : List.Forall₂ (Capture.Alike (Kin N)) captures captures') :
      Kin N (.lambda code captures) (.lambda code' captures')

/-- A library that is blind to the spans in the bodies of functions and to their numbers: what it
does with arguments that differ in nothing else differs in nothing else. -/
def Library.Blind (l : Library) : Prop :=
  ∀ N : Nat → Nat → Prop,
    RespectingTable (Environment.Alike (Callable.Kin N)) (Callable.Kin N) l.functions

theorem Library.standard_blind : Library.standard.Blind := fun _ => Library.standard_respects

/-- Runs without a limit of time on variables that differ in the numbers of their functions. -/
def kinship (library : Library) (N : Nat → Nat → Prop) : Likeness where
  World := Unit
  library := library
  deadline := none
  callables := Callable.Kin N
  environments _ := Environment.Alike (Callable.Kin N)
  Knows _ _ := True
  spans _ _ := True
  numbers := N

variable {N : Nat → Nat → Prop} {library : Library}

theorem Callable.Kin.lambda {code code' : Lambda} {captures captures' : List Capture}
    (h : Callable.Kin N (.lambda code captures) (.lambda code' captures')) :
    code'.params = code.params ∧ code'.root = code.root ∧ code'.forest.bare = code.forest.bare
      ∧ List.Forall₂ (Capture.Alike (Callable.Kin N)) captures captures' := by
  cases h with
  | same =>
      refine ⟨rfl, rfl, rfl, List.forall₂_same.mpr fun c _ => ?_⟩
      obtain ⟨name, v⟩ := c
      exact .mk name (.refl .same v)
  | twins hcode hcaptures => exact ⟨hcode.params, hcode.root, hcode.forest, hcaptures⟩

theorem kinship_lawful (hlibrary : library.Blind) (hN : ∀ n n', N n n' → N (n + 1) (n' + 1)) :
    (kinship library N).Lawful where
  shown f f' h := by
    cases h with
    | same => rfl
    | twins hcode _ => rw [Callable.text, Callable.text, hcode.params]
  kinds f f' h := by
    cases h with
    | same =>
        cases f with
        | named name => exact .inl ⟨name, rfl, rfl⟩
        | lambda code captures => exact .inr ⟨code, captures, code, captures, rfl, rfl, rfl⟩
    | twins hcode _ => exact .inr ⟨_, _, _, _, rfl, rfl, hcode.params⟩
  named name := .same (.named name)
  constants _ v _ := .refl .same v
  lookup _ _ _ he name _ := he.lookup name
  define _ _ _ he name _ _ hv := he.define name hv
  call _ name _ _ hargs := Library.call_agrees (hlibrary N) name hargs
  enter _ e e' he code captures code' captures' hf args args' hargs _ := by
    obtain ⟨hparams, hroot, hforest, hcaptures⟩ := hf.lambda
    refine ⟨(), id, fun _ => True, ?_, fun x x' hx => hx.pop, Forest.mirrors_of_bare hforest,
      trivial, hroot⟩
    exact he.push.defineAll (boundAlike_boundBy hparams hcaptures hargs)
  fresh := hN
  close _ e e' he params root forest forest' n n' hn hforest := by
    refine .twins ⟨rfl, rfl, hforest.bare_eq, n, n', rfl, rfl, hn⟩ ?_
    rw [hforest.namesIn_eq]
    exact he.capture _

/-! ### The functions among the variables -/

/-- The functions in a value, but not those that these have captured. -/
def Value.callables : Value → List Callable
  | .function f => [f]
  | .plot _ series => series.filterMap fun
    | .curve f _ _ => some f
    | .points _ _ => none
  | _ => []

def Environment.callables (e : Environment) : List Callable :=
  e.scopes.flatMap fun s => s.flatMap fun b => b.2.callables

/-- The number of a function that has one. -/
def Callable.serial? : Callable → Option Nat
  | .lambda code _ => code.serial
  | .named _ => none

section Rigid

variable {F : Callable → Callable → Prop}

theorem forall₂_eq_of_mem {α : Type} {P : α → α → Prop} {xs ys : List α}
    (h : List.Forall₂ P xs ys) (hP : ∀ x ∈ xs, ∀ y, P x y → y = x) : ys = xs := by
  induction h with
  | nil => rfl
  | cons hx _ ih =>
      obtain ⟨hfirst, hrest⟩ := List.forall_mem_cons.mp hP
      rw [hfirst _ hx, ih hrest]

theorem Value.Alike.eq_of_callables {v v' : Value} (h : v.Alike F v')
    (hF : ∀ f ∈ v.callables, ∀ f', F f f' → f' = f) : v' = v := by
  cases h with
  | function h => rw [hF _ (List.mem_singleton_self _) _ h]
  | plot title h =>
      refine congrArg (Value.plot title) (forall₂_eq_of_mem h fun s hs s' hsame => ?_)
      cases hsame with
      | points x y => rfl
      | curve hf start stop =>
          rw [hF _ (List.mem_filterMap.mpr ⟨_, hs, rfl⟩) _ hf]
  | _ => rfl

theorem Environment.Alike.eq_of_callables {e e' : Environment} (h : e.Alike F e')
    (hF : ∀ f ∈ e.callables, ∀ f', F f f' → f' = f) : e' = e := by
  have hscopes : e'.scopes = e.scopes := by
    refine forall₂_eq_of_mem h.scopes fun s hs s' hsame => forall₂_eq_of_mem hsame ?_
    rintro ⟨name, v⟩ hb ⟨name', v'⟩ ⟨rfl, hv⟩
    refine congrArg (Prod.mk _) (hv.eq_of_callables fun f hf => hF f ?_)
    exact List.mem_flatMap.mpr ⟨s, hs, List.mem_flatMap.mpr ⟨_, hb, hf⟩⟩
  obtain ⟨innermost, outer⟩ := e
  obtain ⟨innermost', outer'⟩ := e'
  obtain ⟨rfl, rfl⟩ := List.cons.inj hscopes
  rfl

theorem Value.Alike.flip {v v' : Value} (h : v.Alike F v') : v'.Alike (fun f f' => F f' f) v := by
  cases h with
  | function h => exact .function h
  | plot title h =>
      have hseries {s s' : Series} (hs : s.Alike F s') : s'.Alike (fun f f' => F f' f) s := by
        cases hs with
        | points x y => exact .points x y
        | curve hf start stop => exact .curve (F := fun f f' => F f' f) hf start stop
      exact .plot title (List.Forall₂.flip (h.imp fun _ _ => hseries))
  | _ => exact .of_isPlain ⟨nofun, nofun⟩

theorem Environment.Alike.flip {e e' : Environment} (h : e.Alike F e') :
    e'.Alike (fun f f' => F f' f) e := by
  have hscope {s s' : Scope} (hs : s.Alike F s') : s'.Alike (fun f f' => F f' f) s :=
    List.Forall₂.flip (List.Forall₂.imp (fun _ _ hb => ⟨hb.1.symm, hb.2.flip⟩) hs)
  exact ⟨hscope h.innermost, List.Forall₂.flip (h.outer.imp fun _ _ => hscope)⟩

/-- From some number on, none is in use. -/
theorem Environment.exists_unused (e : Environment) :
    ∃ n₀, ∀ f ∈ e.callables, ∀ n, f.serial? = some n → n < n₀ := by
  obtain ⟨n₀, hn₀⟩ :=
    Set.Finite.bddAbove (List.finite_toSet (e.callables.filterMap Callable.serial?))
  refine ⟨n₀ + 1, fun f hf n hn => Nat.lt_succ_of_le (hn₀ ?_)⟩
  exact List.mem_filterMap.mpr ⟨f, hf, hn⟩

/-- Functions that had their numbers before are the same. -/
theorem Callable.Kin.eq_of_unused {f f' : Callable} (h : f.Kin N f')
    (hN : (∀ n n', N n n' → f.serial? ≠ some n) ∨ ∀ n n', N n n' → f'.serial? ≠ some n') :
    f' = f := by
  cases h with
  | same => rfl
  | twins hcode _ =>
      obtain ⟨n, n', hn, hn', hnumbers⟩ := hcode.numbers
      rcases hN with hN | hN
      · exact absurd hn (hN n n' hnumbers)
      · exact absurd hn' (hN n n' hnumbers)

end Rigid

/-! ### Runs -/

/-- What evaluation reads of a machine: the variables, and what `end` stands for. -/
structure View where
  environment : Environment
  extents : List (Option Nat)

def Machine.view (m : Machine) : View := ⟨m.environment, m.extents⟩

namespace Evaluation

variable {α β : Type} {w : View} {x : Evaluation α}

/-- Where it gives something, the evaluation leaves what can be read as it is. -/
def Keeps (x : Evaluation α) (w : View) : Prop :=
  ∀ m a left, m.view = w → x.run.run m = (.ok a, left) → left.view = w

/-- The evaluation gives something with the property, and leaves what can be read as it is. -/
def Completes (w : View) (x : Evaluation α) (Q : α → Prop) : Prop :=
  ∀ m, m.view = w → ∃ a left, x.run.run m = (.ok a, left) ∧ left.view = w ∧ Q a

/-- The evaluations run alike, with results that are related as soon as functions are. -/
def Kindred (library : Library) (P : (Callable → Callable → Prop) → α → β → Prop)
    (x : Evaluation α) (x' : Evaluation β) : Prop :=
  ∀ N : Nat → Nat → Prop, (∀ n n', N n n' → N (n + 1) (n' + 1)) →
    Paired ((kinship library N).Machines ()) (Stop.Alike fun _ _ => True) (P (Callable.Kin N)) x x'

namespace Kindred

variable {library : Library} {P : (Callable → Callable → Prop) → α → β → Prop} {x' : Evaluation β}
  {m : Machine} {a : α} {b : β} {left : Machine}

/-- One of the two machines is like the other but for the next number. -/
theorem renumbered {N : Nat → Nat → Prop} {n n' : Nat} (m : Machine) (hn : N n n') :
    (kinship library N).Machines () { m with nextSerial := n } { m with nextSerial := n' } where
  environments := .refl .same m.environment
  checks := .inl rfl
  nextSerial := hn
  extents := rfl

/-- From a run that gives something on the right, one on the left. -/
theorem left_of_right {N : Nat → Nat → Prop} (hN : ∀ n n', N n n' → N (n + 1) (n' + 1))
    (h : Kindred library P x x') {m' left' : Machine} (hm : (kinship library N).Machines () m m')
    (hrun : x'.run.run m' = (.ok b, left')) :
    ∃ a left, x.run.run m = (.ok a, left) ∧ P (Callable.Kin N) a b
      ∧ (kinship library N).Machines () left left' := by
  obtain ⟨hleft, houtcome⟩ := h N hN m m' hm
  rw [hrun] at hleft houtcome
  cases hx : x.run.run m with
  | mk r left =>
      rw [hx] at hleft houtcome
      cases houtcome with
      | ok hP => exact ⟨_, left, rfl, hP, hleft⟩

theorem right_of_left {N : Nat → Nat → Prop} (hN : ∀ n n', N n n' → N (n + 1) (n' + 1))
    (h : Kindred library P x x') {m' : Machine} (hm : (kinship library N).Machines () m m')
    (hrun : x.run.run m = (.ok a, left)) :
    ∃ b left', x'.run.run m' = (.ok b, left') ∧ P (Callable.Kin N) a b
      ∧ (kinship library N).Machines () left left' := by
  obtain ⟨hleft, houtcome⟩ := h N hN m m' hm
  rw [hrun] at hleft houtcome
  cases hx' : x'.run.run m' with
  | mk r left' =>
      rw [hx'] at hleft houtcome
      cases houtcome with
      | ok hP => exact ⟨_, left', rfl, hP, hleft⟩

/-- The run on the left hands out numbers that none of the variables has. -/
theorem keeps (h : Kindred library P x x') (hx : x.Keeps w) : x'.Keeps w := by
  rintro m b left' rfl hrun
  obtain ⟨n₀, hunused⟩ := m.environment.exists_unused
  obtain ⟨a, left, hleft, -, hmachines⟩ := h.left_of_right (N := fun n _ => n₀ ≤ n)
    (fun n _ hn => hn.trans (Nat.le_succ n)) (renumbered m (le_refl n₀)) hrun
  obtain ⟨hkept, hextents⟩ := View.mk.inj (hx { m with nextSerial := n₀ } a left rfl hleft)
  have hsame := hmachines.environments
  rw [hkept] at hsame
  refine View.mk.injEq .. ▸ ⟨?_, hmachines.extents.trans hextents⟩
  refine hsame.eq_of_callables fun f hf f' hkin => hkin.eq_of_unused (.inl fun n _ hn hserial => ?_)
  exact absurd hn (Nat.not_le_of_lt (hunused f hf n hserial))

/-- The same with the sides exchanged. -/
theorem keeps_left (h : Kindred library P x x') (hx : x'.Keeps w) : x.Keeps w := by
  rintro m a left rfl hrun
  obtain ⟨n₀, hunused⟩ := m.environment.exists_unused
  obtain ⟨b, left', hright, -, hmachines⟩ := h.right_of_left (N := fun _ n' => n₀ ≤ n')
    (fun _ n' hn => hn.trans (Nat.le_succ n')) (renumbered m (le_refl n₀)) hrun
  obtain ⟨hkept, hextents⟩ := View.mk.inj (hx { m with nextSerial := n₀ } b left' rfl hright)
  have hsame := hmachines.environments.flip
  rw [hkept] at hsame
  refine View.mk.injEq .. ▸ ⟨?_, hmachines.extents.symm.trans hextents⟩
  refine hsame.eq_of_callables fun f hf f' hkin => ?_
  refine (hkin.eq_of_unused (.inr fun _ n hn hserial => ?_)).symm
  exact absurd hn (Nat.not_le_of_lt (hunused f hf n hserial))

/-- Machines from which the same can be read. -/
theorem machines_of_view {m' : Machine} (h : m.view = m'.view) :
    (kinship library fun _ _ => True).Machines () m m' :=
  have hviews := View.mk.inj h
  ⟨hviews.1 ▸ .refl .same _, .inl rfl, trivial, hviews.2.symm⟩

theorem completes (h : Kindred library P x x') (hx : x.Keeps w) (hm : m.view = w)
    (hrun : x.run.run m = (.ok a, left)) :
    Completes w x' fun b => P (Callable.Kin fun _ _ => True) a b := by
  rintro m' rfl
  have hmachines : (kinship library fun _ _ => True).Machines () m m' := machines_of_view hm
  obtain ⟨b, left', hrun', hP, -⟩ := h.right_of_left (fun _ _ _ => trivial) hmachines hrun
  exact ⟨b, left', hrun', h.keeps hx m' b left' rfl hrun', hP⟩

theorem completes_left (h : Kindred library P x x') (hx : x'.Keeps w) (hm : m.view = w)
    (hrun : x'.run.run m = (.ok b, left)) :
    Completes w x fun a => P (Callable.Kin fun _ _ => True) a b := by
  rintro m' rfl
  have hmachines : (kinship library fun _ _ => True).Machines () m' m := machines_of_view hm.symm
  obtain ⟨a, left', hrun', hP, -⟩ := h.left_of_right (fun _ _ _ => trivial) hmachines hrun
  exact ⟨a, left', hrun', h.keeps_left hx m' a left' rfl hrun', hP⟩

end Kindred

end Evaluation

/-! ### Nodes that stand for one another -/

namespace Setting

open Evaluation

variable {s : Setting} {f : Forest} {g : NodeId → NodeId} {D : NodeId → Prop}

theorem settings_untimed (h : s.forest.Mirrors f g D (fun _ => True) fun _ _ => True)
    (N : Nat → Nat → Prop) :
    (kinship s.library N).Settings () g D (fun _ _ => True) s.untimed
      { s.untimed with forest := f } :=
  ⟨h, fun _ _ _ => trivial, rfl, rfl, rfl⟩

section Mirrored

variable (hlibrary : s.library.Blind)
  (h : s.forest.Mirrors f g D (fun _ => True) fun _ _ => True)
include hlibrary h

theorem kindred_evaluate (fuel : Nat) {id : NodeId} (hid : D id) :
    Kindred s.library Value.Alike (evaluate fuel s.untimed id)
      (evaluate fuel { s.untimed with forest := f } (g id)) := fun N hN =>
  (kinship_lawful hlibrary hN).evaluates fuel () g D _ _ _ id (settings_untimed h N) hid

theorem kindred_indexArguments (fuel : Nat) (target : Value) {ids : List NodeId}
    (hids : ∀ id ∈ ids, D id) :
    Kindred s.library (fun F => List.Forall₂ (IndexArg.Alike F))
      (s.untimed.indexArguments (evaluate fuel) target ids)
      (Setting.indexArguments { s.untimed with forest := f } (evaluate fuel) target (ids.map g)) :=
  fun N hN =>
    (settings_untimed h N).indexArguments ((kinship_lawful hlibrary hN).evaluates fuel)
      (.refl .same target) hids

end Mirrored

end Setting

end MatrixScript
