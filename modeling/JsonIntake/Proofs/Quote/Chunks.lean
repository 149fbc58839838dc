import JsonIntake.Proofs.Quote.Run

/-!
# Input in chunks

A run may be resumed: the next call starts in the state where the last one
ended and writes behind its output.  State and count go on as if there had
been no cut.  The output does not.  Each call writes the backslash that it
holds back at its end, and the next one, which starts with the backslash still
held back, writes it again or drops it.  So every cut at such a place leaves
one backslash more than a single call, and nothing else, also where several
cuts fall on one place.
-/

namespace JsonIntake

/-! ## One backslash more -/

/-- Insert a backslash at each of some ascending places, which are counted in
the text as it is before. -/
def insertBackslashes (places : List Nat) (text : List UInt8) : List UInt8 :=
  places.foldr (fun place text => text.insertIdx place 92) text

theorem insertIdx_append {place : Nat} {front : List UInt8}
    (back : List UInt8) (byte : UInt8) (hplace : place ≤ front.length) :
    (front ++ back).insertIdx place byte =
      front.insertIdx place byte ++ back := by
  induction front generalizing place with
  | nil =>
      obtain rfl : place = 0 := by simpa using hplace
      simp
  | cons first front ih =>
      cases place with
      | zero => simp
      | succ place =>
          simp only [List.cons_append, List.insertIdx_succ_cons]
          rw [ih (by simpa using hplace)]

section Places

variable {places : List Nat} {front : List UInt8}
  (hplaces : ∀ place ∈ places, place ≤ front.length)

include hplaces

theorem length_insertBackslashes :
    (insertBackslashes places front).length =
      front.length + places.length := by
  induction places with
  | nil => simp [insertBackslashes]
  | cons place places ih =>
      simp only [List.mem_cons, forall_eq_or_imp] at hplaces
      have hrest := ih hplaces.2
      simp only [insertBackslashes, List.foldr_cons,
        List.length_cons] at hrest ⊢
      rw [List.length_insertIdx_of_le_length, hrest]
      · omega
      · rw [hrest]
        omega

theorem insertBackslashes_append (back : List UInt8) :
    insertBackslashes places (front ++ back) =
      insertBackslashes places front ++ back := by
  induction places with
  | nil => rfl
  | cons place places ih =>
      simp only [List.mem_cons, forall_eq_or_imp] at hplaces
      have hplace : place ≤ (insertBackslashes places front).length := by
        rw [length_insertBackslashes hplaces.2]
        omega
      have hrest := ih hplaces.2
      simp only [insertBackslashes, List.foldr_cons] at hrest hplace ⊢
      rw [hrest, insertIdx_append back 92 hplace]

/-- The last place is where the text goes on. -/
theorem insertBackslashes_concat (back : List UInt8) :
    insertBackslashes (places ++ [front.length]) (front ++ back) =
      insertBackslashes places front ++ 92 :: back := by
  have hlast : (front ++ back).insertIdx front.length 92 =
      front ++ 92 :: back := by
    rw [insertIdx_append back 92 (Nat.le_refl _), List.insertIdx_length_self]
    simp
  rw [← insertBackslashes_append hplaces, ← hlast]
  simp [insertBackslashes]

end Places

/-! ## One call after another -/

namespace QuoteRun

variable (delimiter : Option UInt8)

/-- The next call, on one more chunk.  It starts in the state of the last one,
writes behind its output and adds to its count. -/
def resume (run : QuoteRun) (chunk : List UInt8) : QuoteRun :=
  let next := transduce delimiter run.state run.output chunk
  { next with unterminated := run.unterminated + next.unterminated }

/-- A single run at each boundary in front of a chunk. -/
def boundaries : QuoteRun → List (List UInt8) → List QuoteRun
  | _, [] => []
  | run, chunk :: rest =>
    run :: boundaries (chunk.foldl (step delimiter) run) rest

/-- Where a backslash is held back at a boundary. -/
def heldPlaces (run : QuoteRun) (chunks : List (List UInt8)) : List Nat :=
  ((run.boundaries delimiter chunks).filter
    (·.state = .escapeInSingle)).map (·.output.size)

/-- A resumed run is as far as a single one that has not ended yet, up to the
backslashes that it has written too often. -/
structure Follows (places : List Nat) (single many : QuoteRun) : Prop where
  state_eq : many.state = single.state
  unterminated_eq : many.unterminated = single.unterminated
  output_eq : many.output.toList =
    insertBackslashes places single.output.toList ++ single.state.pending
  places_le : ∀ place ∈ places, place ≤ single.output.toList.length

variable {places : List Nat} {single many : QuoteRun}

theorem follows_resume (run : QuoteRun) (chunk : List UInt8) :
    Follows [] (chunk.foldl (step delimiter) run)
      (run.resume delimiter chunk) where
  state_eq := by simp [resume, transduce_state, foldl_step_state]
  unterminated_eq := by
    simp [resume, transduce_unterminated, foldl_step_unterminated]
  output_eq := by
    simp [resume, transduce_output, foldl_step_output, foldl_step_state,
      insertBackslashes]
  places_le := by simp

/-- One call more adds the place of the boundary if a backslash is held back
there. -/
theorem Follows.resume (hfollows : Follows places single many)
    (chunk : List UInt8) :
    Follows
      (places ++
        if single.state = .escapeInSingle then [single.output.size] else [])
      (chunk.foldl (step delimiter) single) (many.resume delimiter chunk) where
  state_eq := by
    simp [QuoteRun.resume, transduce_state, foldl_step_state,
      hfollows.state_eq]
  unterminated_eq := by
    simp [QuoteRun.resume, transduce_unterminated, foldl_step_unterminated,
      hfollows.state_eq, hfollows.unterminated_eq]
  output_eq := by
    simp only [QuoteRun.resume, transduce_output, foldl_step_output,
      foldl_step_state, hfollows.state_eq, hfollows.output_eq]
    by_cases hheld : single.state = .escapeInSingle
    · rw [if_pos hheld, ← Buffer.length_toList,
        insertBackslashes_concat hfollows.places_le]
      simp [QuoteState.pending, hheld]
    · rw [if_neg hheld, List.append_nil,
        insertBackslashes_append hfollows.places_le]
      simp [QuoteState.pending, hheld]
  places_le := by
    intro place hplace
    rw [foldl_step_output, List.length_append]
    rcases List.mem_append.mp hplace with hplace | hplace
    · have := hfollows.places_le place hplace
      omega
    · split at hplace
      · rw [List.mem_singleton.mp hplace, Buffer.length_toList]
        omega
      · simp at hplace

theorem Follows.foldl_resume (hfollows : Follows places single many)
    (chunks : List (List UInt8)) :
    Follows (places ++ single.heldPlaces delimiter chunks)
      (chunks.flatten.foldl (step delimiter) single)
      (chunks.foldl (QuoteRun.resume delimiter) many) := by
  induction chunks generalizing places single many with
  | nil => simpa [heldPlaces, boundaries] using hfollows
  | cons chunk rest ih =>
      have hrest := ih (hfollows.resume delimiter chunk)
      have hplaces :
          single.heldPlaces delimiter (chunk :: rest) =
            (if single.state = .escapeInSingle then [single.output.size]
              else []) ++
              (chunk.foldl (step delimiter) single).heldPlaces delimiter
                rest := by
        by_cases hheld : single.state = .escapeInSingle <;>
          simp [heldPlaces, boundaries, hheld]
      rw [hplaces, ← List.append_assoc, List.flatten_cons, List.foldl_append]
      exact hrest

/-- What both have written once the single run has ended as well. -/
theorem Follows.flush (hfollows : Follows places single many) :
    many.output.toList =
      insertBackslashes places single.flush.output.toList := by
  rw [hfollows.output_eq, flush_output,
    insertBackslashes_append hfollows.places_le]

end QuoteRun

/-- Calls on one chunk after another end in the state of one call on all the
bytes and count the same.  Their output is that of the one call with a
backslash inserted for each boundary where one was held back. -/
theorem foldl_resume_eq_transduce (delimiter : Option UInt8)
    (start : QuoteState) (output : Buffer) (first : List UInt8)
    (rest : List (List UInt8)) :
    let begun : QuoteRun := ⟨start, 0, output⟩
    let many := (first :: rest).foldl (QuoteRun.resume delimiter) begun
    let one := transduce delimiter start output (first :: rest).flatten
    let cuts :=
      (first.foldl (QuoteRun.step delimiter) begun).boundaries delimiter rest
    let held := cuts.filter (·.state = .escapeInSingle)
    many.state = one.state ∧
      many.unterminated = one.unterminated ∧
      many.output.toList =
        insertBackslashes (held.map (·.output.size)) one.output.toList ∧
      many.output.size = one.output.size + held.length ∧
      ((∀ cut ∈ cuts, cut.state ≠ .escapeInSingle) →
        many.output = one.output) := by
  intro begun many one cuts held
  have hfollows :
      QuoteRun.Follows (held.map (·.output.size))
        ((first :: rest).flatten.foldl (QuoteRun.step delimiter) begun)
        many := by
    have hrest :=
      (QuoteRun.follows_resume delimiter begun first).foldl_resume
        delimiter rest
    rw [List.nil_append, ← List.foldl_append] at hrest
    exact hrest
  have houtput := hfollows.flush
  refine ⟨?_, ?_, houtput, ?_, ?_⟩
  · rw [hfollows.state_eq]
    simp [one, transduce, begun]
  · rw [hfollows.unterminated_eq]
    simp [one, transduce, begun]
  · rw [← Buffer.length_toList, houtput, length_insertBackslashes]
    · simp [one, transduce, begun]
    · intro place hplace
      have hle := hfollows.places_le place hplace
      rw [QuoteRun.flush_output, List.length_append]
      omega
  · intro hfree
    have hheld : held = [] := by
      simpa [held, List.filter_eq_nil_iff] using hfree
    rw [hheld] at houtput
    apply Buffer.ext_toList
    simpa [insertBackslashes, one, transduce, begun] using houtput

/-- The string `'\n'`, cut behind its backslash. -/
example :
    let begun : QuoteRun := ⟨.outsideString, 0, .empty⟩
    ([[39, 92], [110, 39]].foldl (QuoteRun.resume none) begun).output.toList =
        [34, 92, 92, 110, 34] ∧
      (transduce none .outsideString .empty [39, 92, 110, 39]).output.toList =
        [34, 92, 110, 34] := by
  decide

end JsonIntake
