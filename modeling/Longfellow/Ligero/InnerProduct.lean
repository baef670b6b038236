/-
The inner product vector: its inner product with the witness positions of the
tableau is the random combination of the linear constraints and of the copies,
and it is what the dot proof sums to.
-/
import Longfellow.Fields.PrimeExtension
import Longfellow.Ligero.Prover

namespace Longfellow.Ligero

open Exec

section Lists

variable {F : Type} [Field F]

/-- The sum of the products of the elements of two lists. -/
def innerProduct (xs ys : List F) : F := (List.zipWith (· * ·) xs ys).sum

theorem innerProduct_append {xs ys : List F} (h : xs.length = ys.length)
    (xs' ys' : List F) :
    innerProduct (xs ++ xs') (ys ++ ys') =
      innerProduct xs ys + innerProduct xs' ys' := by
  rw [innerProduct, List.zipWith_append h, List.sum_append]
  rfl

theorem innerProduct_replicate_zero (n : Nat) (ys : List F) :
    innerProduct (List.replicate n 0) ys = 0 := by
  induction n generalizing ys with
  | zero => rfl
  | succ n ih =>
      cases ys with
      | nil => rfl
      | cons y ys =>
          have hys := ih ys
          simp only [innerProduct] at hys
          simp [innerProduct, List.replicate_succ, hys]

/-- Adding to one element adds a multiple of its partner. -/
theorem innerProduct_set {xs ys : List F} {i : Nat} {x a : F}
    (hx : xs[i]? = some x) (hlength : xs.length = ys.length) :
    innerProduct (xs.set i (x + a)) ys =
      innerProduct xs ys + a * ys.getD i 0 := by
  induction xs generalizing ys i with
  | nil => cases hx
  | cons head xs ih =>
      cases ys with
      | nil => cases hlength
      | cons y ys =>
          cases i with
          | zero =>
              obtain rfl := Option.some.inj hx
              simp only [innerProduct, List.set_cons_zero,
                List.zipWith_cons_cons, List.sum_cons, List.getD_cons_zero]
              ring
          | succ i =>
              have htail := ih hx (Nat.succ.inj hlength)
              simp only [innerProduct] at htail
              simp only [innerProduct, List.set_cons_succ,
                List.zipWith_cons_cons, List.sum_cons, List.getD_cons_succ,
                htail]
              ring

/-- An update that adds to an element that is in range. -/
theorem update_innerProduct {xs ys : List F} {i : Nat} {a : F} {f : F → F}
    (hf : ∀ x, f x = x + a) (hi : i < xs.length)
    (hlength : xs.length = ys.length) :
    Returns (update xs i f) fun updated => updated.length = ys.length ∧
      innerProduct updated ys = innerProduct xs ys + a * ys.getD i 0 := by
  refine ⟨_, update_of_lt hi, ?_, ?_⟩
  · rw [List.length_set, hlength]
  · rw [hf]
    exact innerProduct_set (List.getElem?_eq_getElem hi) hlength

/-- The inner product with a list of rows, row by row. -/
theorem innerProduct_flatten {size : Nat} (rows : List (List F))
    (hrows : ∀ row ∈ rows, row.length = size) (xs : List F)
    (hlength : xs.length = size * rows.length) :
    innerProduct xs rows.flatten =
      ((List.range rows.length).map fun k =>
        innerProduct ((xs.drop (k * size)).take size) (rows.getD k [])).sum := by
  induction rows generalizing xs with
  | nil => simp [innerProduct]
  | cons row rows ih =>
      have hrow : row.length = size := hrows row List.mem_cons_self
      have hsize : size ≤ xs.length := by
        rw [hlength, List.length_cons, Nat.mul_succ]
        exact Nat.le_add_left _ _
      have hfirst : (xs.take size).length = row.length := by
        rw [List.length_take, Nat.min_eq_left hsize, hrow]
      have hrest : (xs.drop size).length = size * rows.length := by
        rw [List.length_drop, hlength, List.length_cons, Nat.mul_succ,
          Nat.add_sub_cancel]
      have htail := ih (fun row hmem => hrows row (List.mem_cons_of_mem _ hmem))
        (xs.drop size) hrest
      calc
        innerProduct xs (row :: rows).flatten =
            innerProduct (xs.take size ++ xs.drop size)
              (row ++ rows.flatten) := by
          rw [List.take_append_drop, List.flatten_cons]
        _ = innerProduct (xs.take size) row +
            innerProduct (xs.drop size) rows.flatten :=
          innerProduct_append hfirst _ _
        _ = _ := by
          rw [htail, List.length_cons, List.range_succ_eq_map, List.map_cons,
            List.sum_cons, List.map_map, Nat.zero_mul, List.drop_zero]
          congr 3
          funext k
          simp [List.drop_drop, Nat.succ_mul, Nat.add_comm]

end Lists

section Vector

variable {F : Type} [Field F] {region : List F}

/-- What the terms of the linear constraints add up to: for each constraint,
its coefficient times its left hand side. -/
def linearCombination (terms : List (LinearConstraintLhsTerm F))
    (alphas region : List F) : F :=
  ((List.range alphas.length).map fun c =>
    alphas.getD c 0 * lhs terms (fun i => region.getD i 0) c).sum

/-- What a quadratic constraint adds: for each of its copies, a coefficient
times its difference to the witness that it is a copy of. -/
def copyTerm (alphas region : List F) (xsStart ysStart zsStart : Nat)
    (constraint : QuadraticConstraint) (i : Nat) : F :=
  alphas.getD (i * 3) 0 *
      (region.getD (xsStart + i) 0 - region.getD constraint.x 0) +
    alphas.getD (i * 3 + 1) 0 *
      (region.getD (ysStart + i) 0 - region.getD constraint.y 0) +
    alphas.getD (i * 3 + 2) 0 *
      (region.getD (zsStart + i) 0 - region.getD constraint.z 0)

/-- What all quadratic constraints add, each of them once. -/
def copyCombination (quadraticConstraints : List QuadraticConstraint)
    (alphas region : List F) (xsStart ysStart zsStart : Nat) : F :=
  (quadraticConstraints.zipIdx.map fun (constraint, i) =>
    copyTerm alphas region xsStart ysStart zsStart constraint i).sum

/-- A sum over constraints of the terms that belong to them is the sum over
the terms. -/
theorem linearCombination_eq (terms : List (LinearConstraintLhsTerm F))
    (alphas region : List F)
    (hterms : ∀ term ∈ terms, term.constraintNumber < alphas.length) :
    linearCombination terms alphas region = (terms.map fun term =>
      alphas.getD term.constraintNumber 0 * term.constantFactor *
        region.getD term.witnessIndex 0).sum := by
  induction terms with
  | nil => simp [linearCombination, lhs]
  | cons term terms ih =>
      have htail := ih fun term hmem => hterms term (List.mem_cons_of_mem _ hmem)
      have hhead : ((List.range alphas.length).map fun c => alphas.getD c 0 *
          if term.constraintNumber = c then
            term.constantFactor * region.getD term.witnessIndex 0
          else 0).sum =
          alphas.getD term.constraintNumber 0 * term.constantFactor *
            region.getD term.witnessIndex 0 := by
        rw [← List.sum_toFinset _ List.nodup_range, List.toFinset_range,
          Finset.sum_eq_single term.constraintNumber]
        · rw [if_pos rfl, mul_assoc]
        · intro c _ hc
          rw [if_neg (Ne.symm hc), mul_zero]
        · intro hmem
          rw [Finset.mem_range] at hmem
          exact absurd (hterms term List.mem_cons_self) hmem
      rw [List.map_cons, List.sum_cons, ← htail, ← hhead, linearCombination,
        linearCombination, ← List.sum_map_add]
      congr 2
      funext c
      rw [lhs, List.map_cons, List.sum_cons, mul_add]
      rfl

/-- The terms of the linear constraints. -/
theorem addLinearTerms_returns (alphas : List F)
    {terms : List (LinearConstraintLhsTerm F)}
    (hterms : ∀ term ∈ terms, term.constraintNumber < alphas.length ∧
      term.witnessIndex < region.length)
    {vector : List F} (hlength : vector.length = region.length) :
    Returns (terms.foldlM (addLinearTerm alphas) vector) fun updated =>
      updated.length = region.length ∧
      innerProduct updated region = innerProduct vector region +
        linearCombination terms alphas region := by
  rw [linearCombination_eq terms alphas region fun term hmem =>
    (hterms term hmem).1]
  induction terms generalizing vector with
  | nil => exact ⟨vector, rfl, hlength, by simp⟩
  | cons term terms ih =>
      obtain ⟨hconstraint, hwitness⟩ := hterms term List.mem_cons_self
      have hstep : Returns (addLinearTerm alphas vector term) fun updated =>
          updated.length = region.length ∧
          innerProduct updated region = innerProduct vector region +
            alphas.getD term.constraintNumber 0 * term.constantFactor *
              region.getD term.witnessIndex 0 := by
        rw [addLinearTerm, index_of_lt hconstraint, ok_bind,
          List.getD_eq_getElem _ _ hconstraint]
        apply update_innerProduct
        · exact fun x => rfl
        · rwa [hlength]
        · exact hlength
      rw [List.foldlM_cons]
      apply hstep.bind
      rintro updated ⟨hupdated, heq⟩
      apply (ih (fun term hmem => hterms term (List.mem_cons_of_mem _ hmem))
        hupdated).mono
      rintro result ⟨hresult, hsum⟩
      refine ⟨hresult, ?_⟩
      rw [hsum, heq, List.map_cons, List.sum_cons, add_assoc]

section Quadratic

variable {quadraticConstraints : List QuadraticConstraint} {alphas : List F}
  {xsStart ysStart zsStart : Nat}

/-- The places of the copies and of the witnesses are in range. -/
structure CopiesInRange (quadraticConstraints : List QuadraticConstraint)
    (alphas : List F) (length xsStart ysStart zsStart : Nat) : Prop where
  alphas_length : alphas.length = 3 * quadraticConstraints.length
  xs : xsStart + quadraticConstraints.length ≤ length
  ys : ysStart + quadraticConstraints.length ≤ length
  zs : zsStart + quadraticConstraints.length ≤ length
  witnesses : ∀ constraint ∈ quadraticConstraints,
    constraint.x < length ∧ constraint.y < length ∧ constraint.z < length

/-- A copy and its witness. -/
theorem update_copy {vector : List F} (alpha : F) {copy witness : Nat}
    (hlength : vector.length = region.length) (hcopy : copy < region.length)
    (hwitness : witness < region.length) :
    Returns (do
      let vector ← update vector copy (· + alpha)
      update vector witness (· - alpha)) fun updated =>
        updated.length = region.length ∧
        innerProduct updated region = innerProduct vector region +
          alpha * (region.getD copy 0 - region.getD witness 0) := by
  have hadd : Returns (update vector copy (· + alpha)) fun updated =>
      updated.length = region.length ∧ innerProduct updated region =
        innerProduct vector region + alpha * region.getD copy 0 := by
    apply update_innerProduct (fun x => rfl)
    · rwa [hlength]
    · exact hlength
  apply hadd.bind
  rintro added ⟨hadded, hsum⟩
  have hsub : Returns (update added witness (· - alpha)) fun updated =>
      updated.length = region.length ∧ innerProduct updated region =
        innerProduct added region + -alpha * region.getD witness 0 := by
    apply update_innerProduct (fun x => sub_eq_add_neg x alpha)
    · rwa [hadded]
    · exact hadded
  apply hsub.mono
  rintro updated ⟨hupdated, heq⟩
  refine ⟨hupdated, ?_⟩
  rw [heq, hsum]
  ring

/-- A quadratic constraint adds its term. -/
theorem addQuadraticConstraint_returns
    (hrange : CopiesInRange quadraticConstraints alphas region.length xsStart
      ysStart zsStart)
    {vector : List F} (hlength : vector.length = region.length) {i : Nat}
    (hi : i < quadraticConstraints.length) :
    Returns (addQuadraticConstraint quadraticConstraints alphas xsStart ysStart
      zsStart vector i) fun updated =>
        updated.length = region.length ∧
        innerProduct updated region = innerProduct vector region +
          copyTerm alphas region xsStart ysStart zsStart
            quadraticConstraints[i] i := by
  obtain ⟨halphas, hxs, hys, hzs, hwitnesses⟩ := hrange
  obtain ⟨hx, hy, hz⟩ := hwitnesses _ (List.getElem_mem hi)
  have hx' : i * 3 < alphas.length := by omega
  have hy' : i * 3 + 1 < alphas.length := by omega
  have hz' : i * 3 + 2 < alphas.length := by omega
  obtain ⟨first, hfirst, hlength₁, hsum₁⟩ := update_copy
    alphas[i * 3] hlength
    (Nat.lt_of_lt_of_le (Nat.add_lt_add_left hi xsStart) hxs) hx
  obtain ⟨second, hsecond, hlength₂, hsum₂⟩ := update_copy
    alphas[i * 3 + 1] hlength₁
    (Nat.lt_of_lt_of_le (Nat.add_lt_add_left hi ysStart) hys) hy
  obtain ⟨third, hthird, hlength₃, hsum₃⟩ := update_copy
    alphas[i * 3 + 2] hlength₂
    (Nat.lt_of_lt_of_le (Nat.add_lt_add_left hi zsStart) hzs) hz
  refine ⟨third, ?_, hlength₃, ?_⟩
  · obtain ⟨copied, hcopied, hfirst⟩ := Exec.bind_eq_ok.mp hfirst
    obtain ⟨copied', hcopied', hsecond⟩ := Exec.bind_eq_ok.mp hsecond
    rw [addQuadraticConstraint, index_of_lt hi, ok_bind, index_of_lt hx',
      ok_bind, index_of_lt hy', ok_bind, index_of_lt hz', ok_bind, hcopied,
      ok_bind, hfirst, ok_bind, hcopied', ok_bind, hsecond, ok_bind]
    exact hthird
  · rw [hsum₃, hsum₂, hsum₁, copyTerm, List.getD_eq_getElem _ _ hx',
      List.getD_eq_getElem _ _ hy', List.getD_eq_getElem _ _ hz']
    ring

/-- The indices that the inner loop visits before it breaks. -/
theorem takeWhile_indices (size start n : Nat) :
    (((List.range size).map fun j => j + start).takeWhile fun index =>
      index < n) = (List.range (min size (n - start))).map (· + start) := by
  induction size generalizing start with
  | zero => simp
  | succ size ih =>
      have hshift : (List.range size).map ((fun j => j + start) ∘ Nat.succ) =
          (List.range size).map fun j => j + (start + 1) := by
        apply List.map_congr_left
        intro j _
        simp [Nat.add_comm, Nat.add_left_comm]
      rw [List.range_succ_eq_map, List.map_cons, List.map_map, hshift,
        Nat.zero_add, List.takeWhile_cons, ih (start + 1)]
      by_cases h : start < n
      · have hmin : min (size + 1) (n - start) =
            min size (n - (start + 1)) + 1 := by
          omega
        rw [hmin, List.range_succ_eq_map, List.map_cons, List.map_map,
          Nat.zero_add]
        simp only [h, decide_true, if_true]
        congr 1
        apply List.map_congr_left
        intro j _
        simp [Nat.add_comm, Nat.add_left_comm]
      · have hmin : min (size + 1) (n - start) = 0 := by omega
        rw [hmin]
        simp [h]

/-- What the first quadratic constraints add. -/
def copySum (quadraticConstraints : List QuadraticConstraint)
    (alphas region : List F) (xsStart ysStart zsStart n : Nat) : F :=
  copyCombination (quadraticConstraints.take n) alphas region xsStart ysStart
    zsStart

theorem copySum_succ {n : Nat} (hn : n < quadraticConstraints.length) :
    copySum quadraticConstraints alphas region xsStart ysStart zsStart (n + 1) =
      copySum quadraticConstraints alphas region xsStart ysStart zsStart n +
        copyTerm alphas region xsStart ysStart zsStart
          quadraticConstraints[n] n := by
  rw [copySum, copySum, copyCombination, copyCombination,
    List.take_succ_eq_append_getElem hn, List.zipIdx_append, List.map_append,
    List.sum_append, List.length_take, Nat.min_eq_left (Nat.le_of_lt hn)]
  simp

/-- The constraints of a row, from the first one that is not yet in the
vector. -/
theorem addRow_returns
    (hrange : CopiesInRange quadraticConstraints alphas region.length xsStart
      ysStart zsStart)
    (size start : Nat) {vector : List F} {base : F}
    (hlength : vector.length = region.length)
    (hsum : innerProduct vector region = base + copySum quadraticConstraints
      alphas region xsStart ysStart zsStart start) :
    Returns ((((List.range size).map fun j => j + start).takeWhile fun index =>
      index < quadraticConstraints.length).foldlM
        (addQuadraticConstraint quadraticConstraints alphas xsStart ysStart
          zsStart) vector) fun updated =>
        updated.length = region.length ∧
        innerProduct updated region = base + copySum quadraticConstraints
          alphas region xsStart ysStart zsStart (start + size) := by
  rw [takeWhile_indices]
  have hloop := Returns.foldlM
    (f := addQuadraticConstraint quadraticConstraints alphas xsStart ysStart
      zsStart)
    (I := fun k updated => updated.length = region.length ∧
      innerProduct updated region = base + copySum quadraticConstraints
        alphas region xsStart ysStart zsStart (start + k))
    ((List.range (min size (quadraticConstraints.length - start))).map
      (· + start))
    (s := vector) ⟨hlength, hsum⟩
    (by
      rintro k hk updated ⟨hupdated, heq⟩
      rw [List.length_map, List.length_range] at hk
      rw [List.getElem_map, List.getElem_range, Nat.add_comm k start]
      have hbound : start + k < quadraticConstraints.length := by omega
      apply (addQuadraticConstraint_returns hrange hupdated hbound).mono
      rintro next ⟨hnext, hstep⟩
      refine ⟨hnext, ?_⟩
      rw [hstep, heq, ← Nat.add_assoc, copySum_succ hbound, add_assoc])
  rw [List.length_map, List.length_range] at hloop
  apply hloop.mono
  rintro updated ⟨hupdated, heq⟩
  refine ⟨hupdated, ?_⟩
  rw [heq, copySum, copySum]
  congr 2
  by_cases h : size ≤ quadraticConstraints.length - start
  · rw [Nat.min_eq_left h]
  · rw [List.take_of_length_le (by omega), List.take_of_length_le (by omega)]

/-- All constraints are added once when there are enough rows for them. -/
theorem addRows_returns
    (hrange : CopiesInRange quadraticConstraints alphas region.length xsStart
      ysStart zsStart)
    {size triples : Nat} (hrows : quadraticConstraints.length ≤ triples * size)
    {vector : List F} (hlength : vector.length = region.length) :
    Returns ((List.range triples).foldlM (fun vector i =>
      (((List.range size).map fun j => j + i * size).takeWhile fun index =>
        index < quadraticConstraints.length).foldlM
          (addQuadraticConstraint quadraticConstraints alphas xsStart ysStart
            zsStart) vector) vector) fun updated =>
        updated.length = region.length ∧
        innerProduct updated region = innerProduct vector region +
          copyCombination quadraticConstraints alphas region xsStart ysStart
            zsStart := by
  have hloop := Returns.foldlM
    (f := fun vector i =>
      (((List.range size).map fun j => j + i * size).takeWhile fun index =>
        index < quadraticConstraints.length).foldlM
          (addQuadraticConstraint quadraticConstraints alphas xsStart ysStart
            zsStart) vector)
    (I := fun k updated => updated.length = region.length ∧
      innerProduct updated region = innerProduct vector region +
        copySum quadraticConstraints alphas region xsStart ysStart zsStart
          (k * size))
    (List.range triples) (s := vector)
    ⟨hlength, by simp [copySum, copyCombination]⟩
    (by
      rintro k hk updated ⟨hupdated, heq⟩
      rw [List.getElem_range, Nat.succ_mul]
      exact addRow_returns hrange size (k * size) hupdated heq)
  rw [List.length_range, copySum, List.take_of_length_le hrows] at hloop
  exact hloop

end Quadratic

/-- The constraints speak of the witnesses of a layout, and there is a
coefficient for each constraint and each copy. -/
structure ConstraintsInRange (layout : TableauLayout)
    (linearConstraints : LinearConstraints F) (linearConstraintAlphas : List F)
    (quadraticConstraints : List QuadraticConstraint)
    (quadraticConstraintAlphas : List F) : Prop where
  quadratic_length :
    layout.numQuadraticConstraints = quadraticConstraints.length
  linear_alphas_length :
    linearConstraintAlphas.length = linearConstraints.rhs.length
  quadratic_alphas_length :
    quadraticConstraintAlphas.length = 3 * quadraticConstraints.length
  linear : linearConstraints.InRange layout.numWitnesses
  quadratic : ∀ constraint ∈ quadraticConstraints,
    constraint.x < layout.numWitnesses ∧ constraint.y < layout.numWitnesses ∧
      constraint.z < layout.numWitnesses

section Sizes

variable {layout : TableauLayout} {linear triples : Nat}

theorem divCeil_mul_ge {a b c : Nat} (h : divCeil a b = .ok c) : a ≤ c * b := by
  obtain ⟨hb, rfl⟩ := divCeil_eq_ok.mp h
  have hlt := Nat.lt_div_mul_add (a := a + b - 1) hb
  omega

/-- The row counts exist when the counts of a row are not zero. -/
theorem numRows_eq_ok
    (hrow : 0 < layout.quadraticConstraintsPerRow)
    (hratio : layout.quadraticConstraintsPerRow ≤ layout.witnessesPerRow) :
    ∃ linear triples, layout.numLinearConstraintRows = .ok linear ∧
      layout.numQuadraticTriples = .ok triples :=
  ⟨_, _, divCeil_eq_ok.mpr ⟨Nat.lt_of_lt_of_le hrow hratio, rfl⟩,
    divCeil_eq_ok.mpr ⟨hrow, rfl⟩⟩

theorem numConstraintRows_eq
    (hlinear : layout.numLinearConstraintRows = .ok linear)
    (htriples : layout.numQuadraticTriples = .ok triples) :
    layout.numConstraintRows = .ok (linear + 3 * triples) := by
  rw [TableauLayout.numConstraintRows, hlinear, ok_bind,
    TableauLayout.numQuadraticRows, htriples]
  rfl

omit [Field F] in
/-- The copies and their witnesses are in the witness positions. -/
theorem ConstraintsInRange.copiesInRange
    {linearConstraints : LinearConstraints F} {linearConstraintAlphas : List F}
    {quadraticConstraints : List QuadraticConstraint}
    {quadraticConstraintAlphas : List F}
    (h : ConstraintsInRange layout linearConstraints linearConstraintAlphas
      quadraticConstraints quadraticConstraintAlphas)
    (hratio : layout.quadraticConstraintsPerRow ≤ layout.witnessesPerRow)
    (hlinear : layout.numLinearConstraintRows = .ok linear)
    (htriples : layout.numQuadraticTriples = .ok triples) :
    quadraticConstraints.length ≤ triples * layout.witnessesPerRow ∧
    layout.numWitnesses ≤ layout.witnessesPerRow * (linear + 3 * triples) ∧
    CopiesInRange quadraticConstraints quadraticConstraintAlphas
      (layout.witnessesPerRow * (linear + 3 * triples))
      (linear * layout.witnessesPerRow)
      (linear * layout.witnessesPerRow + triples * layout.witnessesPerRow)
      (linear * layout.witnessesPerRow + triples * layout.witnessesPerRow +
        triples * layout.witnessesPerRow) := by
  have hwitnesses : layout.numWitnesses ≤ linear * layout.witnessesPerRow :=
    divCeil_mul_ge hlinear
  have hcopies : quadraticConstraints.length ≤
      triples * layout.witnessesPerRow := by
    rw [← h.quadratic_length]
    exact (divCeil_mul_ge htriples).trans (Nat.mul_le_mul_left triples hratio)
  have htotal : layout.witnessesPerRow * (linear + 3 * triples) =
      linear * layout.witnessesPerRow + triples * layout.witnessesPerRow +
        triples * layout.witnessesPerRow + triples * layout.witnessesPerRow := by
    ring
  have hle : layout.numWitnesses ≤
      layout.witnessesPerRow * (linear + 3 * triples) := by
    omega
  refine ⟨hcopies, hle, h.quadratic_alphas_length, by omega, by omega,
    by omega, ?_⟩
  intro constraint hmem
  obtain ⟨hx, hy, hz⟩ := h.quadratic constraint hmem
  exact ⟨hx.trans_le hle, hy.trans_le hle, hz.trans_le hle⟩

end Sizes

/-- The vector is the random combination of the linear constraints and of the
copies. -/
theorem innerProductVector_returns {layout : TableauLayout}
    {linearConstraints : LinearConstraints F} {linearConstraintAlphas : List F}
    {quadraticConstraints : List QuadraticConstraint}
    {quadraticConstraintAlphas : List F} {linear triples : Nat}
    (h : ConstraintsInRange layout linearConstraints linearConstraintAlphas
      quadraticConstraints quadraticConstraintAlphas)
    (hratio : layout.quadraticConstraintsPerRow ≤ layout.witnessesPerRow)
    (hlinear : layout.numLinearConstraintRows = .ok linear)
    (htriples : layout.numQuadraticTriples = .ok triples)
    (hregion : region.length =
      layout.witnessesPerRow * (linear + 3 * triples)) :
    Returns (innerProductVector layout linearConstraints linearConstraintAlphas
      quadraticConstraints quadraticConstraintAlphas) fun vector =>
        vector.length = region.length ∧
        innerProduct vector region =
          linearCombination linearConstraints.lhsTerms linearConstraintAlphas
            region +
          copyCombination quadraticConstraints quadraticConstraintAlphas region
            (linear * layout.witnessesPerRow)
            (linear * layout.witnessesPerRow + triples * layout.witnessesPerRow)
            (linear * layout.witnessesPerRow +
              triples * layout.witnessesPerRow +
              triples * layout.witnessesPerRow) := by
  obtain ⟨hcopies, hwitnesses, hrange⟩ :=
    h.copiesInRange hratio hlinear htriples
  rw [← hregion] at hwitnesses hrange
  rw [innerProductVector, numConstraintRows_eq hlinear htriples, ok_bind]
  have hstart : (List.replicate
      (layout.witnessesPerRow * (linear + 3 * triples)) (0 : F)).length =
        region.length := by
    rw [List.length_replicate, hregion]
  have hterms : ∀ term ∈ linearConstraints.lhsTerms,
      term.constraintNumber < linearConstraintAlphas.length ∧
        term.witnessIndex < region.length := by
    intro term hmem
    obtain ⟨hconstraint, hwitness⟩ := h.linear term hmem
    rw [h.linear_alphas_length]
    exact ⟨hconstraint, hwitness.trans_le hwitnesses⟩
  apply (addLinearTerms_returns linearConstraintAlphas hterms hstart).bind
  rintro vector ⟨hlength, hsum⟩
  rw [hlinear, ok_bind, htriples, ok_bind]
  apply (addRows_returns hrange hcopies hlength).mono
  rintro result ⟨hresult, heq⟩
  refine ⟨hresult, ?_⟩
  rw [heq, hsum, innerProduct_replicate_zero, zero_add]

end Vector

section DotProof

variable {F : Type} [Field F]

theorem length_addProducts (elements xs ys : List F) :
    (addProducts elements xs ys).length = elements.length := by
  induction elements generalizing xs ys with
  | nil => rfl
  | cons element elements ih =>
      cases xs with
      | nil => rfl
      | cons x xs =>
          cases ys with
          | nil => rfl
          | cons y ys => simp [addProducts, ih]

/-- Some of the elements after adding products. -/
theorem take_addProducts (elements xs ys : List F) (n : Nat) :
    (addProducts elements xs ys).take n =
      addProducts (elements.take n) (xs.take n) (ys.take n) := by
  induction n generalizing elements xs ys with
  | zero => simp [addProducts]
  | succ n ih =>
      rcases elements with _ | ⟨element, elements⟩
      · rfl
      · rcases xs with _ | ⟨x, xs⟩
        · rfl
        · rcases ys with _ | ⟨y, ys⟩
          · rfl
          · simp [addProducts, ih]

theorem drop_addProducts (elements xs ys : List F) (n : Nat) :
    (addProducts elements xs ys).drop n =
      addProducts (elements.drop n) (xs.drop n) (ys.drop n) := by
  induction n generalizing elements xs ys with
  | zero => rfl
  | succ n ih =>
      rcases elements with _ | ⟨element, elements⟩
      · simp [addProducts]
      · rcases xs with _ | ⟨x, xs⟩
        · simp [addProducts]
        · rcases ys with _ | ⟨y, ys⟩
          · simp [addProducts]
          · simp [addProducts, ih]

theorem sum_addProducts {elements xs ys : List F}
    (hxs : xs.length ≤ elements.length) :
    (addProducts elements xs ys).sum = elements.sum + innerProduct xs ys := by
  induction elements generalizing xs ys with
  | nil =>
      obtain rfl := List.length_eq_zero_iff.mp (Nat.le_zero.mp hxs)
      simp [addProducts, innerProduct]
  | cons element elements ih =>
      rcases xs with _ | ⟨x, xs⟩
      · simp [addProducts, innerProduct]
      · rcases ys with _ | ⟨y, ys⟩
        · simp [addProducts, innerProduct]
        · have htail : (addProducts elements xs ys).sum =
              elements.sum + innerProduct xs ys :=
            ih (Nat.le_of_succ_le_succ hxs)
          simp only [innerProduct] at htail
          simp only [addProducts, innerProduct, List.sum_cons,
            List.zipWith_cons_cons, htail]
          ring

/-- The elements of a row in the witness positions. -/
def witnessPositions (layout : TableauLayout) (elements : List F) : List F :=
  (elements.take layout.blockSize).drop layout.numRequestedColumns

/-- The witness positions of the tableau, row by row. -/
def region (layout : TableauLayout) (contents : List (List F)) : List F :=
  ((contents.drop TableauLayout.firstWitnessRow).map
    (witnessPositions layout)).flatten

variable [ExtendFieldElement F] {layout : TableauLayout} {dblock : Nat}
  {extendContextBlockDblock : ExtendContext F}

omit [ExtendFieldElement F] in
theorem blockSize_le_dblock (hdblock : layout.dblock = .ok dblock) :
    layout.blockSize ≤ dblock := by
  obtain ⟨hle, rfl⟩ := checkedSub_eq_ok.mp hdblock
  rw [TableauLayout.blockSize]
  omega

/-- The extended part of the vector is zero before the witness positions, so
that only these are multiplied in a block. -/
theorem addDotProduct_returns
    (hextend : Systematic layout.blockSize dblock extendContextBlockDblock)
    (hle : layout.blockSize ≤ dblock) {proof part elements : List F}
    (hproof : proof.length = dblock)
    (hpart : layout.numRequestedColumns + part.length = layout.blockSize) :
    Returns (addDotProduct layout dblock extendContextBlockDblock proof
      (part, elements)) fun added =>
        added.length = dblock ∧
        (witnessPositions layout added).sum =
          (witnessPositions layout proof).sum +
            innerProduct part (witnessPositions layout elements) := by
  have hlength : (List.replicate layout.numRequestedColumns 0 ++ part).length =
      layout.blockSize := by
    rw [List.length_append, List.length_replicate, hpart]
  obtain ⟨extended, hextended, -, htake⟩ := hextend _ hlength
  refine ⟨addProducts proof extended (elements.take dblock), ?_, ?_, ?_⟩
  · rw [addDotProduct, assert_of hlength, ok_bind, hextended]
    rfl
  · rw [length_addProducts, hproof]
  · rw [witnessPositions, take_addProducts, drop_addProducts, htake,
      List.drop_left' List.length_replicate, List.take_take,
      Nat.min_eq_left hle]
    apply sum_addProducts
    rw [List.length_drop, List.length_take, hproof, Nat.min_eq_left hle]
    omega

variable {contents : List (List F)} {vector proof : List F}

/-- The parts of the vector and the rows that they belong to. -/
def dotParts (layout : TableauLayout) (contents : List (List F))
    (vector : List F) : List (List F × List F) :=
  ((List.range (contents.drop TableauLayout.firstWitnessRow).length).map
    fun k => (vector.drop (k * layout.witnessesPerRow)).take
      layout.witnessesPerRow).zip (contents.drop TableauLayout.firstWitnessRow)

omit [Field F] [ExtendFieldElement F] in
theorem chunks_zip (hrow : 0 < layout.witnessesPerRow)
    (hvector : vector.length = layout.witnessesPerRow *
      (contents.drop TableauLayout.firstWitnessRow).length) :
    ∃ parts, chunks vector layout.witnessesPerRow = .ok parts ∧
      parts.zip (contents.drop TableauLayout.firstWitnessRow) =
        dotParts layout contents vector := by
  refine ⟨_, chunks_eq_ok.mpr ⟨hrow, rfl⟩, ?_⟩
  rw [dotParts, hvector, Nat.add_sub_assoc hrow, Nat.mul_add_div hrow,
    Nat.div_eq_of_lt (Nat.sub_one_lt_of_lt hrow), Nat.add_zero]

/-- What the first parts of the vector add to the dot proof. -/
def dotSum (layout : TableauLayout) (contents : List (List F))
    (vector : List F) (n : Nat) : F :=
  ((List.range n).map fun k =>
    innerProduct ((vector.drop (k * layout.witnessesPerRow)).take
      layout.witnessesPerRow)
    (((contents.drop TableauLayout.firstWitnessRow).map
      (witnessPositions layout)).getD k [])).sum

theorem dotProof_loop_returns
    (hextend : Systematic layout.blockSize dblock extendContextBlockDblock)
    (hle : layout.blockSize ≤ dblock)
    (hblock : layout.blockSize =
      layout.numRequestedColumns + layout.witnessesPerRow)
    (hvector : vector.length = layout.witnessesPerRow *
      (contents.drop TableauLayout.firstWitnessRow).length)
    (hproof : proof.length = dblock) :
    Returns ((dotParts layout contents vector).foldlM
      (addDotProduct layout dblock extendContextBlockDblock) proof)
      fun added => added.length = dblock ∧
        (witnessPositions layout added).sum =
          (witnessPositions layout proof).sum + dotSum layout contents vector
            (contents.drop TableauLayout.firstWitnessRow).length := by
  set rows := contents.drop TableauLayout.firstWitnessRow with hrows
  have hloop := Returns.foldlM
    (f := addDotProduct layout dblock extendContextBlockDblock)
    (I := fun n added => added.length = dblock ∧
      (witnessPositions layout added).sum =
        (witnessPositions layout proof).sum + dotSum layout contents vector n)
    (dotParts layout contents vector) (s := proof)
    ⟨hproof, by simp [dotSum]⟩
    (by
      rintro n hn added ⟨hadded, hsum⟩
      rw [dotParts, ← hrows, List.length_zip, List.length_map,
        List.length_range, Nat.min_self] at hn
      have hget : (dotParts layout contents vector)[n]? =
          some ((vector.drop (n * layout.witnessesPerRow)).take
            layout.witnessesPerRow, rows[n]) := by
        simp [dotParts, ← hrows, hn]
      rw [(List.getElem?_eq_some_iff.mp hget).2]
      have hend : (n + 1) * layout.witnessesPerRow ≤ vector.length := by
        rw [hvector, Nat.mul_comm layout.witnessesPerRow]
        exact Nat.mul_le_mul_right _ hn
      have hpart : layout.numRequestedColumns +
          ((vector.drop (n * layout.witnessesPerRow)).take
            layout.witnessesPerRow).length = layout.blockSize := by
        rw [Nat.succ_mul] at hend
        rw [List.length_take, List.length_drop, hblock]
        omega
      apply (addDotProduct_returns hextend hle hadded hpart).mono
      rintro next ⟨hnext, hstep⟩
      refine ⟨hnext, ?_⟩
      rw [hstep, hsum, dotSum, dotSum, List.range_succ, List.map_append,
        List.sum_append, add_assoc]
      simp [← hrows, hn])
  have hcount : (dotParts layout contents vector).length = rows.length := by
    simp [dotParts, ← hrows]
  rwa [hcount] at hloop

omit [ExtendFieldElement F] in
/-- What all parts add is the inner product with the witness positions. -/
theorem dotSum_eq (hblock : layout.blockSize =
      layout.numRequestedColumns + layout.witnessesPerRow)
    (hvector : vector.length = layout.witnessesPerRow *
      (contents.drop TableauLayout.firstWitnessRow).length)
    (hrows : ∀ elements ∈ contents.drop TableauLayout.firstWitnessRow,
      layout.blockSize ≤ elements.length) :
    dotSum layout contents vector
        (contents.drop TableauLayout.firstWitnessRow).length =
      innerProduct vector (region layout contents) := by
  have hsize : ∀ row ∈ (contents.drop TableauLayout.firstWitnessRow).map
      (witnessPositions layout), row.length = layout.witnessesPerRow := by
    intro row hmem
    obtain ⟨elements, helements, rfl⟩ := List.mem_map.mp hmem
    rw [witnessPositions, List.length_drop, List.length_take,
      Nat.min_eq_left (hrows elements helements), hblock,
      Nat.add_sub_cancel_left]
  rw [region, innerProduct_flatten _ hsize vector (by rwa [List.length_map]),
    dotSum, List.length_map]

variable {blinds : List F}

/-- The dot proof returns, with the sum of the blinds and the inner product in
the witness positions. -/
theorem dotProof_returns
    (hdblock : layout.dblock = .ok dblock)
    (hextend : Systematic layout.blockSize dblock extendContextBlockDblock)
    (hrow : 0 < layout.witnessesPerRow)
    (hblock : layout.blockSize =
      layout.numRequestedColumns + layout.witnessesPerRow)
    (hvector : vector.length = layout.witnessesPerRow *
      (contents.drop TableauLayout.firstWitnessRow).length)
    (hrows : ∀ elements ∈ contents.drop TableauLayout.firstWitnessRow,
      layout.blockSize ≤ elements.length)
    (hblinds : contents[TableauLayout.dotProofRow]? = some blinds)
    (hlength : dblock ≤ blinds.length) :
    Returns (dotProof layout contents vector extendContextBlockDblock)
      fun proof => (witnessPositions layout proof).sum =
        (witnessPositions layout blinds).sum +
          innerProduct vector (region layout contents) := by
  have hle := blockSize_le_dblock hdblock
  have hstart : (blinds.take dblock).length = dblock := by
    rw [List.length_take, Nat.min_eq_left hlength]
  have hpositions : witnessPositions layout (blinds.take dblock) =
      witnessPositions layout blinds := by
    rw [witnessPositions, List.take_take, Nat.min_eq_left hle]
    rfl
  obtain ⟨parts, hparts, hzip⟩ := chunks_zip hrow hvector
  obtain ⟨proof, hproof, hsize, hsum⟩ :=
    dotProof_loop_returns hextend hle hblock hvector hstart
  refine ⟨proof, ?_, ?_⟩
  · rw [dotProof, hdblock, ok_bind, rowUpTo, index_eq_ok.mpr hblinds, ok_bind,
      assert_of hlength, ok_bind, pure_eq_ok, ok_bind, hparts, ok_bind, hzip,
      hproof, ok_bind, assert_of hsize]
    rfl
  · rw [hpositions, dotSum_eq hblock hvector hrows] at hsum
    exact hsum

theorem addDotProduct_blockSize {part elements added : List F}
    (h : addDotProduct layout dblock extendContextBlockDblock proof
      (part, elements) = .ok added) :
    layout.numRequestedColumns + part.length = layout.blockSize := by
  obtain ⟨_, hassert, -⟩ := Exec.bind_eq_ok.mp h
  rw [← assert_eq_ok.mp hassert, List.length_append, List.length_replicate]

/-- A dot proof of at least one row checks that the requested columns and the
witnesses make up a block. -/
theorem dotProof_blockSize
    (hvector : vector.length = layout.witnessesPerRow *
      (contents.drop TableauLayout.firstWitnessRow).length)
    (h : dotProof layout contents vector extendContextBlockDblock = .ok proof)
    (hne : contents.drop TableauLayout.firstWitnessRow ≠ []) :
    layout.blockSize =
      layout.numRequestedColumns + layout.witnessesPerRow := by
  obtain ⟨dblock, -, h⟩ := Exec.bind_eq_ok.mp h
  obtain ⟨start, -, h⟩ := Exec.bind_eq_ok.mp h
  obtain ⟨parts, hparts, h⟩ := Exec.bind_eq_ok.mp h
  obtain ⟨added, hadded, -⟩ := Exec.bind_eq_ok.mp h
  obtain ⟨hrow, -⟩ := chunks_eq_ok.mp hparts
  obtain ⟨parts', hparts', hzip⟩ := chunks_zip hrow hvector
  rw [hparts] at hparts'
  obtain rfl := Except.ok.inj hparts'
  obtain ⟨elements, rows, heq⟩ := List.exists_cons_of_ne_nil hne
  rw [hzip, dotParts, heq, List.length_cons, List.range_succ_eq_map,
    List.map_cons, List.zip_cons_cons, List.foldlM_cons] at hadded
  obtain ⟨first, hfirst, -⟩ := Exec.bind_eq_ok.mp hadded
  rw [← addDotProduct_blockSize hfirst, List.length_take, List.length_drop,
    hvector, heq, List.length_cons, Nat.mul_succ, Nat.zero_mul, Nat.sub_zero,
    Nat.min_eq_left (Nat.le_add_left _ _)]

/-- A dot proof that is returned sums to the sum of the blinds and the inner
product in the witness positions. -/
theorem dotProof_ensures
    (hdblock : layout.dblock = .ok dblock)
    (hextend : Systematic layout.blockSize dblock extendContextBlockDblock)
    (hvector : vector.length = layout.witnessesPerRow *
      (contents.drop TableauLayout.firstWitnessRow).length)
    (hrows : ∀ elements ∈ contents.drop TableauLayout.firstWitnessRow,
      layout.blockSize ≤ elements.length)
    (hblinds : contents[TableauLayout.dotProofRow]? = some blinds) :
    Ensures (dotProof layout contents vector extendContextBlockDblock)
      fun proof => (witnessPositions layout proof).sum =
        (witnessPositions layout blinds).sum +
          innerProduct vector (region layout contents) := by
  intro proof hproof
  obtain ⟨dblock', hdblock', hrest⟩ := Exec.bind_eq_ok.mp hproof
  rw [hdblock] at hdblock'
  obtain rfl := Except.ok.inj hdblock'
  obtain ⟨start, hstart, hrest⟩ := Exec.bind_eq_ok.mp hrest
  obtain ⟨blinds', hblinds', hstart⟩ := Exec.bind_eq_ok.mp hstart
  rw [index_eq_ok, hblinds] at hblinds'
  obtain rfl := Option.some.inj hblinds'
  obtain ⟨_, hlength, hstart⟩ := Exec.bind_eq_ok.mp hstart
  obtain rfl := Except.ok.inj hstart
  obtain ⟨parts, hparts, hrest⟩ := Exec.bind_eq_ok.mp hrest
  obtain ⟨hrow, -⟩ := chunks_eq_ok.mp hparts
  by_cases hempty : contents.drop TableauLayout.firstWitnessRow = []
  · rw [hempty, List.zip_nil_right, List.foldlM_nil, pure_eq_ok, ok_bind]
      at hrest
    obtain ⟨_, -, hrest⟩ := Exec.bind_eq_ok.mp hrest
    obtain rfl := Except.ok.inj hrest
    rw [region, hempty, witnessPositions, List.take_take,
      Nat.min_eq_left (blockSize_le_dblock hdblock)]
    simp [innerProduct, witnessPositions]
  · have hblock := dotProof_blockSize hvector hproof hempty
    obtain ⟨proof', hproof', hsum⟩ := dotProof_returns hdblock hextend hrow
      hblock hvector hrows hblinds (assert_eq_ok.mp hlength)
    rw [hproof] at hproof'
    obtain rfl := Except.ok.inj hproof'
    exact hsum

end DotProof

section Combines

variable {F : Type} [Field F] [ExtendFieldElement F] {layout : TableauLayout}
  {linearConstraints : LinearConstraints F} {linearConstraintAlphas : List F}
  {quadraticConstraints : List QuadraticConstraint}
  {quadraticConstraintAlphas : List F}

/-- The inner product vector is the random combination of the constraints, each
of them once, and the dot proof sums to its inner product with the witness
positions of the tableau. There is a vector as soon as a row has room for a
quadratic constraint. -/
theorem innerProductVector_combines
    (h : ConstraintsInRange layout linearConstraints linearConstraintAlphas
      quadraticConstraints quadraticConstraintAlphas)
    (hratio : layout.quadraticConstraintsPerRow ≤ layout.witnessesPerRow) :
    (0 < layout.quadraticConstraintsPerRow →
      ∃ vector, innerProductVector layout linearConstraints
        linearConstraintAlphas quadraticConstraints
          quadraticConstraintAlphas = .ok vector) ∧
    Ensures (innerProductVector layout linearConstraints linearConstraintAlphas
      quadraticConstraints quadraticConstraintAlphas) fun vector =>
      ∃ linear triples, layout.numLinearConstraintRows = .ok linear ∧
        layout.numQuadraticTriples = .ok triples ∧
        (∀ region : List F, region.length =
            layout.witnessesPerRow * (linear + 3 * triples) →
          innerProduct vector region =
            linearCombination linearConstraints.lhsTerms linearConstraintAlphas
              region +
            copyCombination quadraticConstraints quadraticConstraintAlphas
              region (linear * layout.witnessesPerRow)
              (linear * layout.witnessesPerRow +
                triples * layout.witnessesPerRow)
              (linear * layout.witnessesPerRow +
                triples * layout.witnessesPerRow +
                triples * layout.witnessesPerRow)) ∧
        ∀ (contents : List (List F)) (dblock : Nat)
          (extendContextBlockDblock : ExtendContext F) (blinds : List F),
          layout.dblock = .ok dblock →
          Systematic layout.blockSize dblock extendContextBlockDblock →
          contents.length =
            TableauLayout.firstWitnessRow + (linear + 3 * triples) →
          (∀ elements ∈ contents, dblock ≤ elements.length) →
          contents[TableauLayout.dotProofRow]? = some blinds →
          (witnessPositions layout blinds).sum = 0 →
          Ensures (dotProof layout contents vector extendContextBlockDblock)
            (fun proof => (witnessPositions layout proof).sum =
              innerProduct vector (region layout contents)) ∧
          (layout.blockSize =
              layout.numRequestedColumns + layout.witnessesPerRow →
            ∃ proof, dotProof layout contents vector
              extendContextBlockDblock = .ok proof) := by
  constructor
  · intro hpos
    obtain ⟨linear, triples, hlinear, htriples⟩ := numRows_eq_ok hpos hratio
    obtain ⟨vector, hvector, -⟩ := innerProductVector_returns
      h hratio hlinear htriples
      (List.length_replicate (a := (0 : F)))
    exact ⟨vector, hvector⟩
  · intro vector hvector
    obtain ⟨linear, triples, hlinear, htriples⟩ :
        ∃ linear triples, layout.numLinearConstraintRows = .ok linear ∧
          layout.numQuadraticTriples = .ok triples := by
      obtain ⟨rows, -, hrest⟩ := Exec.bind_eq_ok.mp hvector
      obtain ⟨added, -, hrest⟩ := Exec.bind_eq_ok.mp hrest
      obtain ⟨linear, hlinear, hrest⟩ := Exec.bind_eq_ok.mp hrest
      obtain ⟨triples, htriples, -⟩ := Exec.bind_eq_ok.mp hrest
      exact ⟨linear, triples, hlinear, htriples⟩
    have hcombines (region : List F) (hregion : region.length =
        layout.witnessesPerRow * (linear + 3 * triples)) :=
      (innerProductVector_returns h hratio hlinear htriples
        hregion).safe.ensures _ hvector
    have hlength : vector.length =
        layout.witnessesPerRow * (linear + 3 * triples) := by
      have hregion : (List.replicate
          (layout.witnessesPerRow * (linear + 3 * triples)) (0 : F)).length =
            layout.witnessesPerRow * (linear + 3 * triples) :=
        List.length_replicate
      rw [(hcombines _ hregion).1, hregion]
    refine ⟨linear, triples, hlinear, htriples,
      fun region hregion => (hcombines region hregion).2, ?_⟩
    intro contents dblock extendContextBlockDblock blinds hdblock hextend
      hcontents hrows hblinds hzero
    have hcount : vector.length = layout.witnessesPerRow *
        (contents.drop TableauLayout.firstWitnessRow).length := by
      rw [hlength, List.length_drop, hcontents, Nat.add_sub_cancel_left]
    have hle := blockSize_le_dblock hdblock
    have hrows' : ∀ elements ∈ contents.drop TableauLayout.firstWitnessRow,
        layout.blockSize ≤ elements.length := fun elements hmem =>
      hle.trans (hrows elements (List.mem_of_mem_drop hmem))
    constructor
    · intro proof hproof
      rw [dotProof_ensures hdblock hextend hcount hrows' hblinds proof hproof,
        hzero, zero_add]
    · intro hblock
      obtain ⟨hpos, -⟩ := divCeil_eq_ok.mp hlinear
      obtain ⟨proof, hproof, -⟩ := dotProof_returns hdblock hextend hpos hblock
        hcount hrows' hblinds (hrows blinds (List.mem_of_getElem? hblinds))
      exact ⟨proof, hproof⟩

end Combines

section Sample

/-- A layout for one witness and one quadratic constraint. -/
def sampleLayout : TableauLayout := ⟨⟨1, 1, 1, 2, 4⟩, 1, 1⟩

theorem innerProductVector_combines_sample :
    ∃ vector, innerProductVector sampleLayout
      (⟨[⟨0, 0, 1⟩], [5]⟩ : LinearConstraints FieldP128) [2] [⟨0, 0, 0⟩]
      [3, 4, 5] = .ok vector := by
  have hrange : ConstraintsInRange sampleLayout
      (⟨[⟨0, 0, 1⟩], [5]⟩ : LinearConstraints FieldP128) [2] [⟨0, 0, 0⟩]
      [3, 4, 5] :=
    { quadratic_length := rfl
      linear_alphas_length := rfl
      quadratic_alphas_length := rfl
      linear := by
        intro term hterm
        obtain rfl := List.mem_singleton.mp hterm
        exact ⟨Nat.one_pos, Nat.one_pos⟩
      quadratic := by
        intro constraint hconstraint
        obtain rfl := List.mem_singleton.mp hconstraint
        exact ⟨Nat.one_pos, Nat.one_pos, Nat.one_pos⟩ }
  exact (innerProductVector_combines hrange (by decide)).1 (by decide)

end Sample

end Longfellow.Ligero
