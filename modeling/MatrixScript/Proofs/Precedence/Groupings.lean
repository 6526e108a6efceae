import Mathlib.Data.List.Chain
import MatrixScript.Grammar.Operators
import MatrixScript.Proofs.Printing.Syntax

/-!
# Grouping by precedence

Names with operators between them are grouped from the left. An operator is taken as long as it
binds tightly enough for the place; its right operand groups what binds more tightly behind it, and
then the next operator is looked at. What comes out respects the precedences and, on each level, the
associativities, except that on the highest level every operator groups to the right.
-/

namespace MatrixScript

namespace Chain

open Printing (Name)

def symbolChars : List Char := ['@', '#', '$', '%', '&', '<', '>', '?']

/-- An operator between two operands. -/
structure Infix where
  symbol : List Char
  precedence : UInt8
  assoc : Assoc
  op : BinaryOp
  written : symbol ≠ []
  chars : ∀ c ∈ symbol, c ∈ symbolChars
deriving DecidableEq

/-- An operator and the name on its right, with one blank and maybe more in front of each. -/
structure Link where
  before : Nat
  operator : Infix
  after : Nat
  name : Name

/-- Names under operators. -/
inductive Grouping where
  | name (x : Name)
  | join (e : Infix) (left right : Grouping)

namespace Infix

def operator (e : Infix) : Operator := .binary e.symbol e.precedence e.assoc e.op

/-- The least precedence in the right operand. -/
def need (e : Infix) : UInt8 := Operator.rightPrecedence e.precedence e.assoc

/-- How the operator groups among equals. No precedence is left for the right operand of one that
has the highest. -/
def effective (e : Infix) : Assoc := if e.precedence = 255 then .right else e.assoc

/-- Whether an operator declared as left-associative loses its right operand to the next one. -/
structure Yields (e next : Infix) : Prop where
  declared : e.assoc = .left
  highest : e.precedence = 255
  equal : next.precedence = 255

instance (e next : Infix) : Decidable (e.Yields next) :=
  decidable_of_iff (e.assoc = .left ∧ e.precedence = 255 ∧ next.precedence = 255)
    ⟨fun h => ⟨h.1, h.2.1, h.2.2⟩, fun h => ⟨h.declared, h.highest, h.equal⟩⟩

variable (e p : Infix)

theorem need_toNat :
    e.need.toNat = if e.effective = .left then e.precedence.toNat + 1 else e.precedence.toNat := by
  by_cases htop : e.precedence = 255
  · cases hassoc : e.assoc <;> simp [need, effective, Operator.rightPrecedence, htop, hassoc]
  · have hlt : e.precedence.toNat ≠ 255 := fun h => htop (UInt8.toNat_inj.mp h)
    have hle : e.precedence.toNat < 256 := e.precedence.toNat_lt
    cases hassoc : e.assoc with
    | left =>
        simp only [need, effective, Operator.rightPrecedence, if_neg htop, hassoc, if_true,
          UInt8.toNat_add]
        change (e.precedence.toNat + 1) % 256 = _
        omega
    | right => simp [need, effective, Operator.rightPrecedence, htop, hassoc]

/-- What may stand at the root of the right operand. -/
theorem need_le_iff : e.need ≤ p.precedence
    ↔ e.precedence < p.precedence ∨ e.precedence = p.precedence ∧ e.effective = .right := by
  rw [UInt8.le_iff_toNat_le, UInt8.lt_iff_toNat_lt, ← UInt8.toNat_inj, need_toNat]
  cases e.effective
  · simp only [if_true, reduceCtorEq, and_false, or_false]
    omega
  · simp only [reduceCtorEq, if_false, and_true]
    omega

/-- What may come next without taking the right operand of `p`. -/
theorem lt_need_iff : e.precedence < p.need
    ↔ e.precedence < p.precedence ∨ e.precedence = p.precedence ∧ p.effective = .left := by
  rw [UInt8.lt_iff_toNat_lt, UInt8.lt_iff_toNat_lt, ← UInt8.toNat_inj, need_toNat]
  cases p.effective
  · simp only [if_true, and_true]
    omega
  · simp only [reduceCtorEq, if_false, and_false, or_false]

variable {e p}

theorem assoc_of_effective (h : e.effective = .left) : e.assoc = .left := by
  unfold effective at h
  split at h
  · cases h
  · exact h

theorem highest_of_effective (hassoc : e.assoc = .left) (h : e.effective = .right) :
    e.precedence = 255 := by
  by_contra hlower
  rw [effective, if_neg hlower, hassoc] at h
  cases h

end Infix

namespace Grouping

variable {t t' : Grouping} {e p : Infix}

def tree : Grouping → Tree
  | name x => x.tree
  | join e left right => .of (.binary e.op left.tree right.tree)

/-- The names from left to right. -/
def names : Grouping → List Name
  | name x => [x]
  | join _ left right => left.names ++ right.names

/-- The operators from left to right. -/
def infixes : Grouping → List Infix
  | name _ => []
  | join e left right => left.infixes ++ e :: right.infixes

def root? : Grouping → Option Infix
  | name _ => none
  | join e .. => some e

/-- Whether every operator binds less tightly than those at the roots of its operands, or as tightly
where the associativity puts it above them. -/
def Respects (assoc : Infix → Assoc) : Grouping → Prop
  | name _ => True
  | join e left right =>
    (∀ p ∈ right.root?,
        e.precedence < p.precedence ∨ e.precedence = p.precedence ∧ assoc e = .right)
      ∧ (∀ p ∈ left.root?,
        e.precedence < p.precedence ∨ e.precedence = p.precedence ∧ assoc p = .left)
      ∧ left.Respects assoc ∧ right.Respects assoc

/-! ### What a tree says about its grouping -/

theorem length_infixes_of_tree (h : t.tree = t'.tree) : t.infixes.length = t'.infixes.length := by
  induction t generalizing t' with
  | name x =>
      cases t' with
      | name y => rfl
      | join e left right => simp [tree, Name.tree, Tree.of, NodeKind.children, NodeKind.slots] at h
  | join e left right ihleft ihright =>
      cases t' with
      | name y => simp [tree, Name.tree, Tree.of, NodeKind.children, NodeKind.slots] at h
      | join e' left' right' =>
          have hparts := (Tree.node.inj h).2.2
          rw [infixes, infixes, List.length_append, List.length_append, List.length_cons,
            List.length_cons, ihleft (List.cons.inj hparts).1,
            ihright (List.cons.inj (List.cons.inj hparts).2).1]

/-- A node says which operation it is, but not which operator; the operators in their order do. -/
theorem eq_of_tree (h : t.tree = t'.tree) (hinfixes : t.infixes = t'.infixes) : t = t' := by
  induction t generalizing t' with
  | name x =>
      cases t' with
      | name y =>
          obtain ⟨chars, _⟩ := x
          obtain ⟨chars', _⟩ := y
          have hlabel := (Tree.node.inj h).1
          have htext : String.ofList chars = String.ofList chars' := by
            simpa [NodeKind.label, NodeKind.map, NodeKind.mapM] using hlabel
          obtain rfl := String.ofList_injective htext
          rfl
      | join e left right => simp [infixes] at hinfixes
  | join e left right ihleft ihright =>
      cases t' with
      | name y => simp [infixes] at hinfixes
      | join e' left' right' =>
          have hparts := (Tree.node.inj h).2.2
          have hleft := (List.cons.inj hparts).1
          have hright := (List.cons.inj (List.cons.inj hparts).2).1
          obtain ⟨hbefore, hfrom⟩ := List.append_inj hinfixes (length_infixes_of_tree hleft)
          obtain ⟨rfl, hbehind⟩ := List.cons.inj hfrom
          rw [ihleft hleft hbefore, ihright hright hbehind]

/-! ### The highest level -/

theorem not_highest_lt (precedence : UInt8) : ¬ 255 < precedence :=
  UInt8.not_lt.mpr (UInt8.le_iff_toNat_le.mpr (Nat.le_of_lt_succ precedence.toNat_lt))

/-- On the highest level nothing but a name stands on the left of an operator. -/
theorem infixes_left_of_highest {left right : Grouping}
    (h : (join e left right).Respects Infix.effective) (htop : e.precedence = 255) :
    left.infixes = [] := by
  cases left with
  | name x => rfl
  | join p _ _ =>
      exfalso
      rcases h.2.1 p rfl with hlt | ⟨hequal, heffective⟩
      · exact not_highest_lt _ (htop ▸ hlt)
      · rw [Infix.effective, if_pos (hequal.symm.trans htop)] at heffective
        cases heffective

theorem head?_infixes_of_highest (h : t.Respects Infix.effective) (hp : p ∈ t.root?)
    (htop : p.precedence = 255) : t.infixes.head? = some p := by
  cases t with
  | name x => cases hp
  | join e left right =>
      cases hp
      rw [infixes, infixes_left_of_highest h htop, List.nil_append, List.head?_cons]

/-- What is grouped as the operators group is also grouped as they are declared, unless one of them
yields to the next. -/
theorem respects_declared_iff (h : t.Respects Infix.effective) :
    t.Respects Infix.assoc ↔ t.infixes.IsChain fun e next => ¬ e.Yields next := by
  induction t with
  | name x => exact iff_of_true trivial .nil
  | join e left right ihleft ihright =>
      have hwhole := h
      obtain ⟨hright, hleft, hleft_below, hright_below⟩ := h
      have hright_iff : (∀ p ∈ right.root?, e.precedence < p.precedence
            ∨ e.precedence = p.precedence ∧ e.assoc = .right)
          ↔ ∀ next ∈ right.infixes.head?, ¬ e.Yields next := by
        constructor
        · intro hdeclared next hnext hyields
          cases right with
          | name x => cases hnext
          | join p _ _ =>
              rcases hdeclared p rfl with hlt | ⟨-, hassoc⟩
              · exact not_highest_lt _ (hyields.highest ▸ hlt)
              · rw [hyields.declared] at hassoc
                cases hassoc
        · intro hnone p hp
          refine (hright p hp).imp_right fun ⟨hequal, heffective⟩ => ⟨hequal, ?_⟩
          cases hassoc : e.assoc with
          | right => rfl
          | left =>
              have htop := Infix.highest_of_effective hassoc heffective
              have hnext : p.precedence = 255 := hequal.symm.trans htop
              exact absurd ⟨hassoc, htop, hnext⟩
                (hnone p (head?_infixes_of_highest hright_below hp hnext))
      -- an operator that counts as left-associative is declared so, so the left side is no concern
      have hleft_declared : ∀ p ∈ left.root?, e.precedence < p.precedence
          ∨ e.precedence = p.precedence ∧ p.assoc = .left := fun p hp =>
        (hleft p hp).imp_right (And.imp_right Infix.assoc_of_effective)
      have hacross : ∀ last ∈ left.infixes.getLast?, ∀ next ∈ (e :: right.infixes).head?,
          ¬ last.Yields next := by
        intro last hlast next hnext hyields
        cases hnext
        rw [infixes_left_of_highest hwhole hyields.equal] at hlast
        cases hlast
      rw [Respects, infixes, List.isChain_append, List.isChain_cons, hright_iff,
        ihleft hleft_below, ihright hright_below]
      exact ⟨fun ⟨hhead, _, hl, hr⟩ => ⟨hl, ⟨hhead, hr⟩, hacross⟩,
        fun ⟨hl, ⟨hhead, hr⟩, _⟩ => ⟨hhead, hleft_declared, hl, hr⟩⟩

end Grouping

/-! ### The loop over operators -/

/-- What the loop makes of a grouping and the links behind it, where operators have to bind at least
as tightly as `least`: a grouping, and the links that are left. -/
inductive Climbs : UInt8 → Grouping → List Link → Grouping → List Link → Prop where
  | stop {least : UInt8} {t : Grouping} {links : List Link}
      (hloose : ∀ l ∈ links.head?, l.operator.precedence < least) : Climbs least t links t links
  | take {least : UInt8} {t right t' : Grouping} {l : Link} {links rest rest' : List Link}
      (hleast : ¬ l.operator.precedence < least)
      (hright : Climbs l.operator.need (.name l.name) links right rest)
      (hmore : Climbs least (.join l.operator t right) rest t' rest') :
      Climbs least t (l :: links) t' rest'

namespace Climbs

variable {least : UInt8} {t t' : Grouping} {links rest : List Link}

/-- What is taken is the first links, in their order. -/
theorem taken (h : Climbs least t links t' rest) : ∃ done, links = done ++ rest
    ∧ t'.names = t.names ++ done.map (·.name)
    ∧ t'.infixes = t.infixes ++ done.map (·.operator) := by
  induction h with
  | stop _ => exact ⟨[], rfl, (List.append_nil _).symm, (List.append_nil _).symm⟩
  | @take least t right t' l links rest rest' _ _ _ ihright ihmore =>
      obtain ⟨inner, rfl, hnames, hinfixes⟩ := ihright
      obtain ⟨outer, rfl, hnames', hinfixes'⟩ := ihmore
      refine ⟨l :: (inner ++ outer), by simp, ?_, ?_⟩
      · simp [hnames', Grouping.names, hnames]
      · simp [hinfixes', Grouping.infixes, hinfixes]

theorem suffix (h : Climbs least t links t' rest) : rest <:+ links := by
  obtain ⟨done, hdone, -⟩ := h.taken
  exact ⟨done, hdone.symm⟩

/-- The loop always ends. Both the right operand and the rest of the loop have fewer links. -/
theorem exists_of (least : UInt8) (t : Grouping) (links : List Link) :
    ∃ t' rest, Climbs least t links t' rest := by
  induction hn : links.length using Nat.strongRecOn generalizing least t links with
  | ind n ih =>
      cases links with
      | nil => exact ⟨t, [], .stop nofun⟩
      | cons l links =>
          rw [List.length_cons] at hn
          by_cases hloose : l.operator.precedence < least
          · exact ⟨t, l :: links, .stop fun _ hl => Option.some.inj hl ▸ hloose⟩
          · obtain ⟨right, rest, hright⟩ :=
              ih links.length (by omega) l.operator.need (.name l.name) links rfl
            have hlength := hright.suffix.length_le
            obtain ⟨t', rest', hmore⟩ :=
              ih rest.length (by omega) least (.join l.operator t right) rest rfl
            exact ⟨t', rest', .take hloose hright hmore⟩

/-- The invariant of the loop: the operator at the root may not be taken by the next one. -/
theorem respects (h : Climbs least t links t' rest) (ht : t.Respects Infix.effective)
    (hroot : ∀ p ∈ t.root?, least ≤ p.precedence)
    (hnext : ∀ p ∈ t.root?, ∀ l ∈ links.head?, l.operator.precedence < p.need) :
    t'.Respects Infix.effective ∧ (∀ p ∈ t'.root?, least ≤ p.precedence)
      ∧ ∀ l ∈ rest.head?, l.operator.precedence < least := by
  induction h with
  | stop hloose => exact ⟨ht, hroot, hloose⟩
  | @take least t right t' l links rest rest' hleast _ _ ihright ihmore =>
      obtain ⟨hright, hroot_right, hrest⟩ := ihright trivial nofun nofun
      -- the new root may take these operands, and what is left may not take the new root's
      refine ihmore ⟨fun p hp => ?_, fun p hp => ?_, ht, hright⟩ ?_ ?_
      · exact (l.operator.need_le_iff p).mp (hroot_right p hp)
      · exact (l.operator.lt_need_iff p).mp (hnext p hp l rfl)
      · rintro p ⟨⟩
        exact UInt8.not_lt.mp hleast
      · rintro p ⟨⟩
        exact hrest

/-- With nothing asked of the operators the loop takes all of them. -/
theorem whole {x : Name} (h : Climbs 0 (.name x) links t rest) :
    rest = [] ∧ t.Respects Infix.effective ∧ t.names = x :: links.map (·.name)
      ∧ t.infixes = links.map (·.operator) := by
  obtain ⟨hrespects, -, hloose⟩ := h.respects trivial nofun nofun
  have hrest : rest = [] := by
    cases rest with
    | nil => rfl
    | cons l rest => exact absurd (hloose l rfl) (UInt8.not_lt.mpr UInt8.zero_le)
  obtain ⟨done, hdone, hnames, hinfixes⟩ := h.taken
  rw [hrest, List.append_nil] at hdone
  subst hdone
  exact ⟨hrest, hrespects, hnames, hinfixes⟩

end Climbs

end Chain

end MatrixScript
