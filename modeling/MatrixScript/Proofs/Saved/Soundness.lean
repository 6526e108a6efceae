import MatrixScript.Proofs.Saved.RoundTrip

/-!
# What is read is well-formed

Whatever the bytes are, a reader that succeeds gives something with a known property: a list as long
as it was said to be, a matrix that fills its shape. The property of a value is that it is
well-formed at every level, that it can be saved, and that it has no serial numbers, so saving it
and reading it again gives the same value.
-/

namespace MatrixScript

/-- Well-formed, possible to save, and without serial numbers. -/
structure Value.Sound (v : Value) : Prop where
  wellFormed : v.WellFormed
  addressable : v.Addressable
  unnumbered : v.unnumbered = v

structure Callable.Sound (f : Callable) : Prop where
  wellFormed : f.WellFormed
  addressable : f.Addressable
  unnumbered : f.unnumbered = f

structure Series.Sound (s : Series) : Prop where
  wellFormed : s.WellFormed
  addressable : s.Addressable
  unnumbered : s.unnumbered = s

def Capture.Sound : Capture → Prop
  | .mk name v => TextAddressable name ∧ v.Sound

theorem Series.all_sound {xs : List Series} (h : ∀ x ∈ xs, x.Sound) :
    Series.AllWellFormed xs ∧ Series.AllAddressable xs ∧ Series.allUnnumbered xs = xs := by
  induction xs with
  | nil => exact ⟨trivial, trivial, rfl⟩
  | cons x xs ih =>
      have hx := h x List.mem_cons_self
      obtain ⟨hwf, haddr, hserial⟩ := ih fun y hy => h y (List.mem_cons_of_mem x hy)
      refine ⟨⟨hx.wellFormed, hwf⟩, ⟨hx.addressable, haddr⟩, ?_⟩
      rw [Series.allUnnumbered, hx.unnumbered, hserial]

theorem Capture.all_sound {cs : List Capture} (h : ∀ c ∈ cs, c.Sound) :
    Capture.AllWellFormed cs ∧ Capture.AllAddressable cs ∧ Capture.allUnnumbered cs = cs := by
  induction cs with
  | nil => exact ⟨trivial, trivial, rfl⟩
  | cons c cs ih =>
      obtain ⟨name, v⟩ := c
      obtain ⟨hname, hv⟩ := h _ List.mem_cons_self
      obtain ⟨hwf, haddr, hserial⟩ := ih fun d hd => h d (List.mem_cons_of_mem _ hd)
      refine ⟨⟨hv.wellFormed, hwf⟩, ⟨hname, hv.addressable, haddr⟩, ?_⟩
      rw [Capture.allUnnumbered, hv.unnumbered, hserial]

namespace Decoder

/-- Whatever this reads has the property. -/
def Yields {α : Type} (d : Decoder α) (P : α → Prop) : Prop :=
  ∀ bytes x rest, d bytes = .ok (x, rest) → P x

variable {α β : Type}

theorem yields_pure {P : α → Prop} {x : α} (hx : P x) : Yields (pure x) P := by
  intro bytes y rest h
  cases h
  exact hx

theorem yields_throw {P : α → Prop} (fault : DecodeFault) : Yields (throw fault) P := by
  intro bytes y rest h
  cases h

theorem yields_bind {d : Decoder α} {f : α → Decoder β} {P : α → Prop} {Q : β → Prop}
    (hd : d.Yields P) (hf : ∀ x, P x → (f x).Yields Q) : (d >>= f).Yields Q := by
  intro bytes y rest h
  change (d bytes >>= fun p => f p.1 p.2) = _ at h
  cases hread : d bytes with
  | error fault =>
      rw [hread] at h
      cases h
  | ok p =>
      rw [hread] at h
      exact hf p.1 (hd bytes p.1 p.2 hread) p.2 y rest h

theorem yields_map {d : Decoder α} {P : α → Prop} {Q : β → Prop} (f : α → β) (hd : d.Yields P)
    (hf : ∀ x, P x → Q (f x)) : Yields (do return f (← d)) Q :=
  yields_bind hd fun x hx => yields_pure (hf x hx)

theorem yields_true (d : Decoder α) : d.Yields fun _ => True := fun _ _ _ _ => trivial

theorem littleEndian_yields (n : Nat) : (littleEndian n).Yields (· < 256 ^ n) := by
  induction n with
  | zero => exact yields_pure (by decide)
  | succ n ih =>
      intro bytes x rest h
      cases bytes with
      | nil => cases h
      | cons b bytes =>
          change (littleEndian n bytes >>= fun p => Except.ok (b.toNat + 256 * p.1, p.2)) = _ at h
          cases hread : littleEndian n bytes with
          | error fault =>
              rw [hread] at h
              cases h
          | ok p =>
              rw [hread] at h
              cases h
              have hp := ih bytes p.1 p.2 hread
              have hb := b.toNat_lt
              rw [Nat.pow_succ]
              omega

theorem count_yields : count.Yields FitsCount := littleEndian_yields 8

theorem text_yields : text.Yields TextAddressable := by
  refine yields_bind count_yields fun n hn bytes s rest h => ?_
  change (if bytes.length < n then _ else _ : Decoder String) bytes = _ at h
  split at h
  · cases h
  · cases hdecode : Utf8.decode (bytes.take n) with
    | error cause =>
        rw [hdecode] at h
        cases h
    | ok cs =>
        rw [hdecode] at h
        cases h
        rw [TextAddressable, String.toList_ofList, ← Utf8.decode_eq_ok_iff.mp hdecode, FitsCount]
        exact Nat.lt_of_le_of_lt (List.length_take_le n bytes) hn

theorem repeated_yields {d : Decoder α} {P : α → Prop} (hd : d.Yields P) (n : Nat) :
    (repeated d n).Yields fun xs => xs.length = n ∧ ∀ x ∈ xs, P x := by
  induction n with
  | zero => exact yields_pure ⟨rfl, by simp⟩
  | succ n ih =>
      refine yields_bind hd fun x hx => yields_map (x :: ·) ih fun xs hxs => ?_
      exact ⟨congrArg (· + 1) hxs.1, List.forall_mem_cons.mpr ⟨hx, hxs.2⟩⟩

theorem list_yields {d : Decoder α} {P : α → Prop} (hd : d.Yields P) :
    (list d).Yields (ListAddressable P) :=
  yields_bind count_yields fun n hn bytes xs rest h =>
    have hxs := repeated_yields hd n bytes xs rest h
    ⟨hxs.1 ▸ hn, hxs.2⟩

theorem checked_yields (r : Result α) : (checked r).Yields (r = .ok ·) := by
  cases r with
  | error cause => exact yields_throw _
  | ok x => exact yields_pure rfl

theorem matrix_yields : matrix.Yields fun m => m.WellFormed ∧ m.Addressable := by
  refine yields_bind count_yields fun rows hrows => ?_
  refine yields_bind count_yields fun cols hcols => ?_
  refine yields_bind (yields_true _) fun data _ bytes m rest h => ?_
  obtain ⟨rfl, hwf⟩ := Matrix.ofData_eq_ok_iff.mp (checked_yields _ bytes m rest h)
  exact ⟨hwf, hrows, hcols⟩

theorem progression_yields : progression.Yields Progression.WellFormed := by
  refine yields_bind (yields_true _) fun start _ => ?_
  refine yields_bind (yields_true _) fun step _ => ?_
  refine yields_bind (yields_true _) fun stop _ bytes r rest h => ?_
  exact (Progression.make_eq_ok_iff.mp (checked_yields _ bytes r rest h)).2

theorem element_yields : element.Yields Element.Addressable := by
  refine yields_bind (yields_true _) fun n _ => ?_
  split
  · exact yields_map _ (yields_true _) fun _ _ => trivial
  · exact yields_map _ text_yields fun _ hs => hs

theorem elementSet_yields : elementSet.Yields fun s => s.WellFormed ∧ s.Addressable := by
  refine yields_bind text_yields fun name hname => ?_
  refine yields_bind (yields_true _) fun ordered _ => ?_
  refine yields_bind (list_yields element_yields) fun elements helements bytes s rest h => ?_
  obtain ⟨hwf, rfl, hsub⟩ := wellFormed_of_makeSet (checked_yields _ bytes s rest h)
  have hlength : FitsCount s.elements.length := Nat.lt_of_le_of_lt hsub.length_le helements.1
  exact ⟨hwf, hname, hlength, fun x hx => helements.2 x (hsub.subset hx)⟩

theorem nodeKind_yields : nodeKind.Yields NodeKind.Addressable := by
  have hids := list_yields (yields_true nodeId)
  refine yields_bind (yields_true _) fun n _ => ?_
  split
  · exact yields_map _ (yields_true _) fun _ _ => trivial
  · exact yields_map _ (yields_true _) fun _ _ => trivial
  · exact yields_map _ text_yields fun _ hs => hs
  · exact yields_map _ text_yields fun _ hs => hs
  · exact yields_pure trivial
  · exact yields_pure trivial
  · exact yields_bind (yields_true _) fun _ _ => yields_map _ (yields_true _) fun _ _ => trivial
  · exact yields_bind (yields_true _) fun _ _ => yields_bind (yields_true _) fun _ _ =>
      yields_map _ (yields_true _) fun _ _ => trivial
  · exact yields_bind (yields_true _) fun _ _ => yields_map _ (yields_true _) fun _ _ => trivial
  · exact yields_bind (yields_true _) fun _ _ => yields_bind (yields_true _) fun _ _ =>
      yields_map _ (yields_true _) fun _ _ => trivial
  · exact yields_bind (yields_true _) fun _ _ => yields_map _ hids fun _ hargs => hargs.1
  · exact yields_map _ (list_yields hids) fun _ hrows => ⟨hrows.1, fun row hrow => (hrows.2 row hrow).1⟩
  · exact yields_map _ hids fun _ hitems => hitems.1
  · exact yields_bind (list_yields text_yields) fun _ hparams =>
      yields_map _ (yields_true _) fun _ _ => hparams
  · exact yields_map _ (list_yields (yields_true _)) fun _ hstatements => hstatements.1
  · exact yields_bind (yields_true _) fun _ _ => yields_bind (yields_true _) fun _ _ =>
      yields_map _ (yields_true _) fun _ _ => trivial
  · exact yields_bind (yields_true _) fun _ _ => yields_map _ (yields_true _) fun _ _ => trivial
  · exact yields_bind (yields_true _) fun _ _ => yields_bind (yields_true _) fun _ _ =>
      yields_bind (yields_true _) fun _ _ => yields_map _ (yields_true _) fun _ _ => trivial

theorem node_yields : node.Yields Node.Addressable :=
  yields_bind nodeKind_yields fun _ hkind => yields_bind (yields_true _) fun _ _ =>
    yields_map _ (yields_true _) fun _ _ => hkind

theorem lambda_yields : lambda.Yields fun f => f.Addressable ∧ f.unnumbered = f := by
  refine yields_bind (list_yields text_yields) fun params hparams => ?_
  refine yields_bind (yields_true _) fun root _ => ?_
  have hforest : forest.Yields fun f => ListAddressable Node.Addressable f.nodes.toList :=
    yields_map _ (list_yields node_yields) fun _ hnodes => hnodes
  exact yields_map _ hforest fun f hnodes => ⟨⟨hparams, hnodes⟩, rfl⟩

/-! ### Values -/

section Nested

variable {nested : Decoder Value}

theorem capture_yields (h : nested.Yields Value.Sound) : (capture nested).Yields Capture.Sound :=
  yields_bind text_yields fun _ hname => yields_map _ h fun _ hv => ⟨hname, hv⟩

theorem callable_yields (h : nested.Yields Value.Sound) :
    (callable nested).Yields Callable.Sound := by
  refine yields_bind (yields_true _) fun n _ => ?_
  split
  · refine yields_bind lambda_yields fun f hf => ?_
    refine yields_bind (list_yields (capture_yields h)) fun captures hcaptures => ?_
    obtain ⟨hwf, haddr, hserial⟩ := Capture.all_sound hcaptures.2
    refine yields_bind (checked_yields _) fun _ hcheck => yields_pure ?_
    refine ⟨⟨checkLambda_eq_ok_iff.mp hcheck, hwf⟩, ⟨hf.1, hcaptures.1, haddr⟩, ?_⟩
    rw [Callable.unnumbered, hf.2, hserial]
  · exact yields_map _ text_yields fun _ hname => ⟨trivial, hname, rfl⟩

theorem series_yields (h : nested.Yields Value.Sound) : (series nested).Yields Series.Sound := by
  refine yields_bind (yields_true _) fun n _ => ?_
  split
  · refine yields_bind matrix_yields fun x hx => yields_map _ matrix_yields fun y hy => ?_
    exact ⟨⟨hx.1, hy.1⟩, ⟨hx.2, hy.2⟩, rfl⟩
  · refine yields_bind (callable_yields h) fun f hf => yields_bind (yields_true _) fun start _ => ?_
    refine yields_map _ (yields_true _) fun stop _ => ⟨hf.wellFormed, hf.addressable, ?_⟩
    rw [Series.unnumbered, hf.unnumbered]

end Nested

theorem value_yields (fuel : Nat) : (value fuel).Yields Value.Sound := by
  induction fuel with
  | zero => exact yields_throw _
  | succ fuel ih =>
      refine yields_bind (yields_true _) fun n _ => ?_
      split
      · exact yields_map _ (yields_true _) fun _ _ => ⟨trivial, trivial, rfl⟩
      · exact yields_map _ matrix_yields fun _ hm => ⟨hm.1, hm.2, rfl⟩
      · exact yields_map _ text_yields fun _ hs => ⟨trivial, hs, rfl⟩
      · exact yields_map _ progression_yields fun _ hr => ⟨hr, trivial, rfl⟩
      · exact yields_map _ elementSet_yields fun _ hs => ⟨hs.1, hs.2, rfl⟩
      · refine yields_map _ (callable_yields ih) fun f hf => ⟨hf.wellFormed, hf.addressable, ?_⟩
        rw [Value.unnumbered, hf.unnumbered]
      · refine yields_bind text_yields fun title htitle => ?_
        refine yields_map _ (list_yields (series_yields ih)) fun xs hxs => ?_
        obtain ⟨hwf, haddr, hserial⟩ := Series.all_sound hxs.2
        refine ⟨hwf, ⟨htitle, hxs.1, haddr⟩, ?_⟩
        rw [Value.unnumbered, hserial]

end Decoder

theorem Value.sound_of_ofBytes {bytes : List UInt8} {v : Value} (h : Value.ofBytes bytes = .ok v) :
    v.Sound := by
  unfold Value.ofBytes at h
  split at h
  · rename_i w rest hread
    obtain rfl := Except.ok.inj h
    exact Decoder.value_yields _ bytes w rest hread
  · cases h

/-- Bytes never make a malformed value: whatever is read is well-formed at every level, and saving
it gives bytes that read back as the same value. -/
theorem Value.wellFormed_of_ofBytes (bytes : List UInt8) (v : Value)
    (h : Value.ofBytes bytes = .ok v) : v.WellFormed ∧ Value.ofBytes v.toBytes = .ok v := by
  have hv := Value.sound_of_ofBytes h
  have hread := Value.ofBytes_append hv.wellFormed hv.addressable []
  rw [List.append_nil, hv.unnumbered] at hread
  exact ⟨hv.wellFormed, hread⟩

/-- A function that captured a set, with a byte behind it that is ignored. -/
theorem Value.wellFormed_of_ofBytes_function :
    let code : Lambda := ⟨["x"], ⟨0⟩, ⟨#[⟨.name "x", ⟨5, 6⟩⟩]⟩, none⟩
    let captured : Value := .set ⟨"s", true, [.number ⟨Double.nan, Double.negativeZero⟩, .text "a"]⟩
    let v : Value := .function (.lambda code [.mk "k" captured])
    let bytes := v.toBytes ++ [7]
    Value.ofBytes bytes = .ok v ∧ v.WellFormed ∧ Value.ofBytes v.toBytes = .ok v := by
  intro code captured v bytes
  have hwf : v.WellFormed := ⟨⟨by decide, by decide⟩, ⟨by decide, by decide⟩, trivial⟩
  have hnodes : ListAddressable Node.Addressable code.forest.nodes.toList :=
    ⟨by decide, by simp [code, Node.Addressable, NodeKind.Addressable]; decide⟩
  have helements : ListAddressable Element.Addressable
      [.number ⟨Double.nan, Double.negativeZero⟩, .text "a"] :=
    ⟨by decide, by simp [Element.Addressable]; decide⟩
  have hcaptures : Capture.AllAddressable [.mk "k" captured] :=
    ⟨by decide, ⟨by decide, helements⟩, trivial⟩
  have hv : v.Addressable := ⟨⟨by decide, hnodes⟩, by decide, hcaptures⟩
  have h : Value.ofBytes bytes = .ok v := Value.ofBytes_append hwf hv [7]
  exact ⟨h, Value.wellFormed_of_ofBytes bytes v h⟩

end MatrixScript
