import Mathlib.Algebra.Group.Nat.Defs
import MatrixScript.Proofs.Construction
import MatrixScript.Proofs.Saved.Utf8
import MatrixScript.Saved.Encode
import MatrixScript.Text.Utf8
import MatrixScript.Value.Basic

/-!
# Saved values read back

Every writer of a part has a reader that takes exactly the bytes written, whatever stands behind
them, and gives the part back. Readers that follow one another read what was written one behind the
other, so the law for a value is put together from the laws for its parts. The checks that reading
makes are those that every well-formed part passes.

A saved value writes every length, and the two dimensions of a matrix, as 64-bit numbers. Whatever
is held in memory has such lengths, so this is no restriction on values that exist, but it has to be
said of values that are only described.

Serial numbers are not saved: they tell the functions of one program run from each other. What is
read back is the value with its serial numbers forgotten.
-/

namespace MatrixScript

/-! ### What a saved value can say -/

/-- A number that 64 bits hold. -/
def FitsCount (n : Nat) : Prop := n < 2 ^ 64

/-- A text whose bytes can be counted. -/
def TextAddressable (s : String) : Prop := FitsCount (Utf8.encode s.toList).length

/-- A list that can be counted, as can the things in it. -/
def ListAddressable {α : Type} (each : α → Prop) (xs : List α) : Prop :=
  FitsCount xs.length ∧ ∀ x ∈ xs, each x

instance (n : Nat) : Decidable (FitsCount n) := inferInstanceAs (Decidable (n < 2 ^ 64))

instance (s : String) : Decidable (TextAddressable s) := inferInstanceAs (Decidable (FitsCount _))

instance {α : Type} (each : α → Prop) [DecidablePred each] (xs : List α) :
    Decidable (ListAddressable each xs) := inferInstanceAs (Decidable (_ ∧ _))

def Matrix.Addressable (m : Matrix) : Prop :=
  FitsCount m.rows ∧ FitsCount m.cols

def Element.Addressable : Element → Prop
  | .number _ => True
  | .text s => TextAddressable s

structure ElementSet.Addressable (s : ElementSet) : Prop where
  name : TextAddressable s.name
  elements : ListAddressable Element.Addressable s.elements

def NodeKind.Addressable : NodeKind NodeId → Prop
  | .text s | .name s => TextAddressable s
  | .call _ args => FitsCount args.length
  | .matrix rows => ListAddressable (fun row => FitsCount row.length) rows
  | .tuple items => FitsCount items.length
  | .lambda params _ => ListAddressable TextAddressable params
  | .block statements => FitsCount statements.length
  | _ => True

def Node.Addressable (n : Node) : Prop := n.kind.Addressable

structure Lambda.Addressable (f : Lambda) : Prop where
  params : ListAddressable TextAddressable f.params
  nodes : ListAddressable Node.Addressable f.forest.nodes.toList

mutual

def Value.Addressable : Value → Prop
  | .scalar _ => True
  | .matrix m => m.Addressable
  | .text s => TextAddressable s
  | .range _ => True
  | .set s => s.Addressable
  | .function f => f.Addressable
  | .plot title series =>
    TextAddressable title ∧ FitsCount series.length ∧ Series.AllAddressable series

def Callable.Addressable : Callable → Prop
  | .lambda code captures =>
    code.Addressable ∧ FitsCount captures.length ∧ Capture.AllAddressable captures
  | .named name => TextAddressable name

def Series.Addressable : Series → Prop
  | .points x y => x.Addressable ∧ y.Addressable
  | .curve f _ _ => f.Addressable

def Series.AllAddressable : List Series → Prop
  | [] => True
  | s :: rest => s.Addressable ∧ Series.AllAddressable rest

def Capture.AllAddressable : List Capture → Prop
  | [] => True
  | .mk name v :: rest => TextAddressable name ∧ v.Addressable ∧ Capture.AllAddressable rest

end

def Lambda.unnumbered (f : Lambda) : Lambda := { f with serial := none }

mutual

/-- The value without serial numbers, at every level. -/
def Value.unnumbered : Value → Value
  | .function f => .function f.unnumbered
  | .plot title series => .plot title (Series.allUnnumbered series)
  | v => v

def Callable.unnumbered : Callable → Callable
  | .lambda code captures => .lambda code.unnumbered (Capture.allUnnumbered captures)
  | .named name => .named name

def Series.unnumbered : Series → Series
  | .points x y => .points x y
  | .curve f start stop => .curve f.unnumbered start stop

def Series.allUnnumbered : List Series → List Series
  | [] => []
  | s :: rest => s.unnumbered :: Series.allUnnumbered rest

def Capture.allUnnumbered : List Capture → List Capture
  | [] => []
  | .mk name v :: rest => .mk name v.unnumbered :: Capture.allUnnumbered rest

end

/-! ### Writers and readers -/

namespace Decoder

/-- Reads exactly these bytes as `x`, whatever stands behind them. -/
def Reads {α : Type} (d : Decoder α) (bytes : List UInt8) (x : α) : Prop :=
  ∀ rest, d (bytes ++ rest) = .ok (x, rest)

variable {α β : Type}

theorem reads_pure (x : α) : Reads (pure x) [] x := fun _ => rfl

theorem reads_bind {d : Decoder α} {f : α → Decoder β} {first second : List UInt8} {x : α} {y : β}
    (hd : d.Reads first x) (hf : (f x).Reads second y) : (d >>= f).Reads (first ++ second) y := by
  intro rest
  rw [List.append_assoc]
  change (d (first ++ (second ++ rest)) >>= fun p => f p.1 p.2) = _
  rw [hd]
  exact hf rest

theorem reads_bind_nil {d : Decoder α} {f : α → Decoder β} {bytes : List UInt8} {x : α} {y : β}
    (hd : d.Reads bytes x) (hf : (f x).Reads [] y) : (d >>= f).Reads bytes y := by
  have h := reads_bind hd hf
  rwa [List.append_nil] at h

theorem reads_map {d : Decoder α} {bytes : List UInt8} {x : α} (f : α → β) (hd : d.Reads bytes x) :
    Reads (do return f (← d)) bytes (f x) :=
  reads_bind_nil hd (reads_pure (f x))

theorem littleEndian_reads (n x : Nat) (hx : x < 256 ^ n) :
    (littleEndian n).Reads (Saved.littleEndian n x) x := by
  induction n generalizing x with
  | zero =>
      obtain rfl : x = 0 := by omega
      exact reads_pure 0
  | succ n ih =>
      intro rest
      have hdiv : x / 256 < 256 ^ n := by
        rw [Nat.pow_succ] at hx
        omega
      have hlow : (UInt8.ofNat x).toNat + 256 * (x / 256) = x := by
        rw [UInt8.toNat_ofNat']
        omega
      change (littleEndian n (Saved.littleEndian n (x / 256) ++ rest) >>= fun p =>
        Except.ok ((UInt8.ofNat x).toNat + 256 * p.1, p.2)) = _
      rw [ih (x / 256) hdiv rest]
      exact congrArg (fun y => Except.ok (y, rest)) hlow

theorem word_reads (x : UInt32) : word.Reads (Saved.word x) x := by
  have h := reads_map UInt32.ofNat (littleEndian_reads 4 x.toNat x.toNat_lt)
  rwa [UInt32.ofNat_toNat] at h

theorem count_reads {n : Nat} (hn : FitsCount n) : count.Reads (Saved.count n) n :=
  littleEndian_reads 8 n hn

theorem double_reads (x : Double) : double.Reads (Saved.double x) x := by
  have h := reads_map (fun n => (⟨UInt64.ofNat n⟩ : Double))
    (littleEndian_reads 8 x.bits.toNat x.bits.toNat_lt)
  rwa [UInt64.ofNat_toNat] at h

theorem tag_reads {n choices : Nat} (hn : n < choices) (hchoices : choices ≤ 2 ^ 32) :
    (tag choices).Reads (Saved.tag n) n := by
  refine reads_bind_nil (littleEndian_reads 4 n (Nat.lt_of_lt_of_le hn hchoices)) ?_
  rw [if_pos hn]
  exact reads_pure n

theorem flag_reads (b : Bool) : flag.Reads (Saved.flag b) b := by
  intro rest
  cases b <;> rfl

theorem text_reads {s : String} (hs : TextAddressable s) :
    text.Reads (Saved.text s) s := by
  refine reads_bind (count_reads hs) fun rest => ?_
  generalize hbytes : Utf8.encode s.toList = bytes
  have hdecode : Utf8.decode bytes = .ok s.toList := Utf8.decode_eq_ok_iff.mpr hbytes.symm
  have hlength : ¬(bytes ++ rest).length < bytes.length := by simp
  change (if (bytes ++ rest).length < bytes.length then _ else _ : Decoder String)
    (bytes ++ rest) = _
  rw [if_neg hlength, List.take_left, List.drop_left, hdecode]
  change Except.ok (String.ofList s.toList, rest) = _
  rw [String.ofList_toList]

theorem repeated_reads {d : Decoder α} {f : α → List UInt8} {xs : List α}
    (h : ∀ x ∈ xs, d.Reads (f x) x) : (repeated d xs.length).Reads (xs.flatMap f) xs := by
  induction xs with
  | nil => exact reads_pure []
  | cons x xs ih =>
      have hx := h x List.mem_cons_self
      have hxs := ih fun y hy => h y (List.mem_cons_of_mem x hy)
      exact reads_bind hx (reads_map (x :: ·) hxs)

theorem list_reads {d : Decoder α} {f : α → List UInt8} {xs : List α} (hlength : FitsCount xs.length)
    (h : ∀ x ∈ xs, d.Reads (f x) x) : (list d).Reads (Saved.list f xs) xs :=
  reads_bind (count_reads hlength) (repeated_reads h)

theorem option_reads {d : Decoder α} {f : α → List UInt8} {x : Option α}
    (h : ∀ y ∈ x, d.Reads (f y) y) : (option d).Reads (Saved.option f x) x := by
  cases x with
  | none => exact fun _ => rfl
  | some y =>
      intro rest
      change (d (f y ++ rest) >>= fun p => Except.ok (some p.1, p.2)) = _
      rw [h y rfl]
      rfl

theorem checked_reads {r : Result α} {x : α} (h : r = .ok x) : (checked r).Reads [] x := by
  rw [h]
  exact reads_pure x

/-! ### The parts of a value -/

theorem complex_reads (z : Complex) : complex.Reads (Saved.complex z) z :=
  reads_bind (double_reads z.re) (reads_map (Complex.mk z.re) (double_reads z.im))

theorem bound_reads (b : Bound) : bound.Reads (Saved.bound b) b := by
  cases b with
  | «at» x =>
      exact reads_bind (tag_reads (by decide) (by decide)) (reads_map Bound.at (double_reads x))
  | «open» => exact reads_bind_nil (tag_reads (by decide) (by decide)) (reads_pure Bound.open)

theorem binaryOp_reads (op : BinaryOp) : binaryOp.Reads (Saved.binaryOp op) op := by
  have hlt : BinaryOp.all.idxOf op < BinaryOp.all.length := by cases op <;> decide
  have hop : BinaryOp.all.getD (BinaryOp.all.idxOf op) .add = op := by cases op <;> rfl
  have h := reads_map (BinaryOp.all.getD · .add) (tag_reads hlt (by decide))
  rwa [hop] at h

theorem unaryOp_reads (op : UnaryOp) : unaryOp.Reads (Saved.unaryOp op) op := by
  have hlt : UnaryOp.all.idxOf op < UnaryOp.all.length := by cases op <;> decide
  have hop : UnaryOp.all.getD (UnaryOp.all.idxOf op) .neg = op := by cases op <;> rfl
  have h := reads_map (UnaryOp.all.getD · .neg) (tag_reads hlt (by decide))
  rwa [hop] at h

theorem nodeId_reads (id : NodeId) : nodeId.Reads (Saved.nodeId id) id :=
  reads_map NodeId.mk (word_reads id.index)


theorem statement_reads (t : NodeId × Bool) :
    statement.Reads (Saved.nodeId t.1 ++ Saved.flag t.2) t :=
  reads_bind (nodeId_reads t.1) (reads_map (t.1, ·) (flag_reads t.2))

theorem tag_bind_reads {f : Nat → Decoder β} {n choices : Nat} {bytes : List UInt8} {y : β}
    (hn : n < choices) (hchoices : choices ≤ 2 ^ 32) (hf : (f n).Reads bytes y) :
    (tag choices >>= f).Reads (Saved.tag n ++ bytes) y :=
  reads_bind (tag_reads hn hchoices) hf

theorem nodeKind_reads {k : NodeKind NodeId} (hk : k.Addressable) :
    nodeKind.Reads (Saved.nodeKind k) k := by
  have htags : 18 ≤ 2 ^ 32 := by decide
  unfold nodeKind
  cases k <;> simp only [Saved.nodeKind, List.append_assoc]
  case real x => exact tag_bind_reads (by decide) htags (reads_map NodeKind.real (double_reads x))
  case imaginary x =>
    exact tag_bind_reads (by decide) htags (reads_map NodeKind.imaginary (double_reads x))
  case text s => exact tag_bind_reads (by decide) htags (reads_map NodeKind.text (text_reads hk))
  case name s => exact tag_bind_reads (by decide) htags (reads_map NodeKind.name (text_reads hk))
  case last => exact reads_bind_nil (tag_reads (by decide) htags) (reads_pure _)
  case everything => exact reads_bind_nil (tag_reads (by decide) htags) (reads_pure _)
  case unary op a =>
    exact tag_bind_reads (by decide) htags
      (reads_bind (unaryOp_reads op) (reads_map _ (nodeId_reads a)))
  case binary op a b =>
    exact tag_bind_reads (by decide) htags
      (reads_bind (binaryOp_reads op)
        (reads_bind (nodeId_reads a) (reads_map _ (nodeId_reads b))))
  case range a b =>
    exact tag_bind_reads (by decide) htags
      (reads_bind (nodeId_reads a) (reads_map _ (nodeId_reads b)))
  case assign a op b =>
    exact tag_bind_reads (by decide) htags
      (reads_bind (nodeId_reads a)
        (reads_bind (option_reads fun op _ => binaryOp_reads op)
          (reads_map _ (nodeId_reads b))))
  case call g args =>
    exact tag_bind_reads (by decide) htags
      (reads_bind (nodeId_reads g) (reads_map _ (list_reads hk fun a _ => nodeId_reads a)))
  case matrix rows =>
    exact tag_bind_reads (by decide) htags
      (reads_map _ (list_reads hk.1 fun row hrow =>
        list_reads (hk.2 row hrow) fun a _ => nodeId_reads a))
  case tuple items =>
    exact tag_bind_reads (by decide) htags
      (reads_map _ (list_reads hk fun a _ => nodeId_reads a))
  case lambda params body =>
    exact tag_bind_reads (by decide) htags
      (reads_bind (list_reads hk.1 fun p hp => text_reads (hk.2 p hp))
        (reads_map _ (nodeId_reads body)))
  case block statements =>
    exact tag_bind_reads (by decide) htags
      (reads_map _ (list_reads hk fun t _ => statement_reads t))
  case branch c y n =>
    exact tag_bind_reads (by decide) htags
      (reads_bind (nodeId_reads c)
        (reads_bind (nodeId_reads y) (reads_map _ (nodeId_reads n))))
  case whileLoop c b =>
    exact tag_bind_reads (by decide) htags
      (reads_bind (nodeId_reads c) (reads_map _ (nodeId_reads b)))
  case forLoop i c s b =>
    exact tag_bind_reads (by decide) htags
      (reads_bind (nodeId_reads i)
        (reads_bind (nodeId_reads c)
          (reads_bind (nodeId_reads s) (reads_map _ (nodeId_reads b)))))

theorem node_reads {n : Node} (hn : n.Addressable) : node.Reads (Saved.node n) n := by
  unfold Saved.node
  rw [List.append_assoc]
  exact reads_bind (nodeKind_reads hn)
    (reads_bind (word_reads n.span.start)
      (reads_map (fun stop => Node.mk n.kind ⟨n.span.start, stop⟩) (word_reads n.span.stop)))

theorem forest_reads {f : Forest} (hf : ListAddressable Node.Addressable f.nodes.toList) :
    forest.Reads (Saved.forest f) f := by
  have h := reads_map (fun nodes => (⟨nodes.toArray⟩ : Forest))
    (list_reads hf.1 fun n hn => node_reads (hf.2 n hn))
  rwa [Array.toArray_toList] at h

theorem lambda_reads {f : Lambda} (hf : f.Addressable) :
    lambda.Reads (Saved.lambda f) f.unnumbered := by
  unfold Saved.lambda
  rw [List.append_assoc]
  exact reads_bind (list_reads hf.params.1 fun p hp => text_reads (hf.params.2 p hp))
    (reads_bind (nodeId_reads f.root)
      (reads_map (fun forest => Lambda.mk f.params f.root forest none) (forest_reads hf.nodes)))

/-! ### Parts that are checked -/

theorem matrix_reads {m : Matrix} (hwf : m.WellFormed) (hm : m.Addressable) :
    matrix.Reads (Saved.matrix m) m := by
  have hcount : m.data.toList.length = m.rows * m.cols := hwf.size_eq
  have hfits : FitsCount m.data.toList.length := by
    have := hwf.size_le
    unfold FitsCount elementLimit at *
    omega
  have hok : Matrix.ofData m.rows m.cols m.data.toList.toArray = .ok m := by
    rw [Array.toArray_toList]
    exact Matrix.ofData_eq_ok_iff.mpr ⟨rfl, hwf⟩
  unfold Saved.matrix
  rw [List.append_assoc]
  exact reads_bind (count_reads hm.1)
    (reads_bind (count_reads hm.2)
      (reads_bind_nil (list_reads hfits fun z _ => complex_reads z) (checked_reads hok)))

theorem progression_reads {r : Progression} (hwf : r.WellFormed) :
    progression.Reads (Saved.progression r) r := by
  have hok := Progression.make_eq_ok_iff.mpr ⟨rfl, hwf⟩
  unfold Saved.progression
  rw [List.append_assoc]
  exact reads_bind (double_reads r.start)
    (reads_bind (double_reads r.step)
      (reads_bind_nil (bound_reads r.stop) (checked_reads hok)))

theorem element_reads {x : Element} (hx : x.Addressable) : element.Reads (Saved.element x) x := by
  cases x with
  | number z =>
      exact tag_bind_reads (by decide) (by decide) (reads_map Element.number (complex_reads z))
  | text s => exact tag_bind_reads (by decide) (by decide) (reads_map Element.text (text_reads hx))

theorem elementSet_reads {s : ElementSet} (hwf : s.WellFormed) (hs : s.Addressable) :
    elementSet.Reads (Saved.elementSet s) s := by
  unfold Saved.elementSet
  rw [List.append_assoc]
  exact reads_bind (text_reads hs.name)
    (reads_bind (flag_reads s.ordered)
      (reads_bind_nil (list_reads hs.elements.1 fun x hx => element_reads (hs.elements.2 x hx))
        (checked_reads (makeSet_of_wellFormed hwf))))

/-! ### Values

Each level of nesting stands behind the tag of the level around it, so the number of bytes bounds
the levels that reading needs. -/

theorem tag_length (n : Nat) : (Saved.tag n).length = 4 := rfl

mutual

theorem value_reads (v : Value) (fuel : Nat) (hwf : v.WellFormed) (hv : v.Addressable)
    (hfuel : (Saved.value v).length < fuel) :
    (value fuel).Reads (Saved.value v) v.unnumbered := by
  obtain ⟨fuel, rfl⟩ : ∃ k, fuel = k + 1 := ⟨fuel - 1, by omega⟩
  have htags : 7 ≤ 2 ^ 32 := by decide
  cases v with
  | scalar z => exact tag_bind_reads (by decide) htags (reads_map Value.scalar (complex_reads z))
  | matrix m =>
      exact tag_bind_reads (by decide) htags (reads_map Value.matrix (matrix_reads hwf hv))
  | text s => exact tag_bind_reads (by decide) htags (reads_map Value.text (text_reads hv))
  | range r =>
      exact tag_bind_reads (by decide) htags (reads_map Value.range (progression_reads hwf))
  | set s => exact tag_bind_reads (by decide) htags (reads_map Value.set (elementSet_reads hwf hv))
  | function f =>
      rw [Saved.value, List.length_append, tag_length] at hfuel
      exact tag_bind_reads (by decide) htags
        (reads_map Value.function (callable_reads f fuel hwf hv (by omega)))
  | plot title xs =>
      obtain ⟨htitle, hlength, hxs⟩ := hv
      simp only [Saved.value, List.length_append, tag_length] at hfuel
      have hall := seriesAll_reads xs fuel hwf hxs (by omega)
      rw [Saved.value, List.append_assoc, List.append_assoc]
      exact tag_bind_reads (by decide) htags
        (reads_bind (text_reads htitle)
          (reads_map (Value.plot title) (reads_bind (count_reads hlength) hall)))

theorem callable_reads (f : Callable) (fuel : Nat) (hwf : f.WellFormed) (hf : f.Addressable)
    (hfuel : (Saved.callable f).length < fuel) :
    (callable (value fuel)).Reads (Saved.callable f) f.unnumbered := by
  have htags : 2 ≤ 2 ^ 32 := by decide
  cases f with
  | lambda code captures =>
      obtain ⟨hcode, hlength, hcs⟩ := hf
      simp only [Saved.callable, List.length_append, tag_length] at hfuel
      have hall := captureAll_reads captures fuel hwf.2 hcs (by omega)
      have hbody : code.unnumbered.WellFormed := ⟨hwf.1.links, hwf.1.root⟩
      have hcheck := checked_reads (checkLambda_eq_ok_iff.mpr hbody)
      rw [Saved.callable, List.append_assoc, List.append_assoc]
      exact tag_bind_reads (by decide) htags
        (reads_bind (lambda_reads hcode)
          (reads_bind_nil (reads_bind (count_reads hlength) hall)
            (reads_bind_nil hcheck (reads_pure _))))
  | named name =>
      exact tag_bind_reads (by decide) htags (reads_map Callable.named (text_reads hf))

theorem series_reads (s : Series) (fuel : Nat) (hwf : s.WellFormed) (hs : s.Addressable)
    (hfuel : (Saved.series s).length < fuel) :
    (series (value fuel)).Reads (Saved.series s) s.unnumbered := by
  have htags : 2 ≤ 2 ^ 32 := by decide
  cases s with
  | points x y =>
      rw [Saved.series, List.append_assoc]
      exact tag_bind_reads (by decide) htags
        (reads_bind (matrix_reads hwf.1 hs.1) (reads_map _ (matrix_reads hwf.2 hs.2)))
  | curve f start stop =>
      simp only [Saved.series, List.length_append, tag_length] at hfuel
      have hf := callable_reads f fuel hwf hs (by omega)
      rw [Saved.series, List.append_assoc, List.append_assoc]
      exact tag_bind_reads (by decide) htags
        (reads_bind hf (reads_bind (double_reads start) (reads_map _ (double_reads stop))))

theorem seriesAll_reads (xs : List Series) (fuel : Nat) (hwf : Series.AllWellFormed xs)
    (hxs : Series.AllAddressable xs) (hfuel : (Saved.seriesAll xs).length < fuel) :
    (repeated (series (value fuel)) xs.length).Reads (Saved.seriesAll xs)
      (Series.allUnnumbered xs) := by
  cases xs with
  | nil => exact reads_pure []
  | cons x xs =>
      simp only [Saved.seriesAll, List.length_append] at hfuel
      have hx := series_reads x fuel hwf.1 hxs.1 (by omega)
      have hrest := seriesAll_reads xs fuel hwf.2 hxs.2 (by omega)
      exact reads_bind hx (reads_map (x.unnumbered :: ·) hrest)

theorem captureAll_reads (cs : List Capture) (fuel : Nat) (hwf : Capture.AllWellFormed cs)
    (hcs : Capture.AllAddressable cs) (hfuel : (Saved.captureAll cs).length < fuel) :
    (repeated (capture (value fuel)) cs.length).Reads (Saved.captureAll cs)
      (Capture.allUnnumbered cs) := by
  cases cs with
  | nil => exact reads_pure []
  | cons c rest =>
      obtain ⟨name, v⟩ := c
      obtain ⟨hname, hv, hrest⟩ := hcs
      simp only [Saved.captureAll, List.length_append] at hfuel
      have hvalue := value_reads v fuel hwf.1 hv (by omega)
      have hall := captureAll_reads rest fuel hwf.2 hrest (by omega)
      exact reads_bind (reads_bind (text_reads hname) (reads_map (Capture.mk name) hvalue))
        (reads_map (Capture.mk name v.unnumbered :: ·) hall)

end

end Decoder

/-- What stands behind a saved value is left. -/
theorem Value.ofBytes_append {v : Value} (hwf : v.WellFormed) (hv : v.Addressable)
    (rest : List UInt8) : Value.ofBytes (v.toBytes ++ rest) = .ok v.unnumbered := by
  have hlength : v.toBytes.length < (v.toBytes ++ rest).length + 1 := by
    rw [List.length_append]
    omega
  have hread : (Decoder.value ((v.toBytes ++ rest).length + 1)).run (v.toBytes ++ rest)
      = .ok (v.unnumbered, rest) := Decoder.value_reads v _ hwf hv hlength rest
  rw [Value.ofBytes, hread]

/-- A saved value reads back as itself: every number bit for bit, every element in its place, every
node with its span, and every captured variable. -/
theorem Value.ofBytes_toBytes (v : Value) (hwf : v.WellFormed) (hv : v.Addressable) :
    Value.ofBytes v.toBytes = .ok v.unnumbered := by
  have hread := Value.ofBytes_append hwf hv []
  rwa [List.append_nil] at hread

/-- A plot of a function that captured an ordered set with a NaN in it, from minus zero on. -/
theorem Value.ofBytes_toBytes_plot :
    let code : Lambda := ⟨["x"], ⟨1⟩, ⟨#[⟨.name "x", ⟨5, 6⟩⟩, ⟨.unary .neg ⟨0⟩, ⟨4, 6⟩⟩]⟩, none⟩
    let captured : Value := .set ⟨"s", true, [.number ⟨Double.nan, Double.negativeZero⟩, .text "a"]⟩
    let v : Value :=
      .plot "p" [.curve (.lambda code [.mk "k" captured]) Double.negativeZero Double.infinity]
    v.WellFormed ∧ v.Addressable ∧ Value.ofBytes v.toBytes = .ok v := by
  intro code captured v
  have hcode : code.WellFormed := ⟨by decide, by decide⟩
  have hcaptured : captured.WellFormed := ⟨by decide, by decide⟩
  have hwf : v.WellFormed := ⟨⟨hcode, hcaptured, trivial⟩, trivial⟩
  have hnodes : ListAddressable Node.Addressable code.forest.nodes.toList :=
    ⟨by decide, by simp [code, Node.Addressable, NodeKind.Addressable]; decide⟩
  have helements : ListAddressable Element.Addressable
      [.number ⟨Double.nan, Double.negativeZero⟩, .text "a"] :=
    ⟨by decide, by simp [Element.Addressable]; decide⟩
  have hcaptures : Capture.AllAddressable [.mk "k" captured] :=
    ⟨by decide, ⟨by decide, helements⟩, trivial⟩
  have hv : v.Addressable :=
    ⟨by decide, by decide, ⟨⟨by decide, hnodes⟩, by decide, hcaptures⟩, trivial⟩
  exact ⟨hwf, hv, Value.ofBytes_toBytes v hwf hv⟩

end MatrixScript
