import JsonIntake.Proofs.Json.Consumption
import JsonIntake.Proofs.Quote.Run
import JsonIntake.Proofs.Table.Joining
import JsonIntake.Records

/-!
# How many records a batch can have

Records are only ever added, at most one of them is malformed for each one
that is added, and without recovery none is.  A document has no more records
than bytes that are no commas, and normalization does not change this: it
writes more bytes than it reads only where it writes a backslash in front of a
quote.
-/

namespace JsonIntake

namespace RecordList

/-- `count` records were added, and the malformed ones among them were
counted. -/
structure Grows (recovery : Recovery) (count : Nat)
    (before after : RecordList) : Prop where
  length : after.reversed.length = before.reversed.length + count
  malformed : after.malformed ≤ before.malformed + count
  strict : recovery = .fail → after.malformed = before.malformed

section Grows

variable {recovery : Recovery} {count more : Nat}
  {before middle after : RecordList}

theorem Grows.refl (recovery : Recovery) (records : RecordList) :
    Grows recovery 0 records records :=
  ⟨rfl, Nat.le_refl _, fun _ => rfl⟩

theorem Grows.trans (hfirst : Grows recovery count before middle)
    (hsecond : Grows recovery more middle after) :
    Grows recovery (count + more) before after where
  length := by rw [hsecond.length, hfirst.length, Nat.add_assoc]
  malformed := by
    have hbefore := hfirst.malformed
    have hafter := hsecond.malformed
    omega
  strict hfail := (hsecond.strict hfail).trans (hfirst.strict hfail)

theorem grows_addMalformed {message : String}
    (hok : before.addMalformed recovery message = .ok after) :
    Grows recovery 1 before after := by
  cases recovery with
  | fail => exact absurd hok nofun
  | recoverWithNull =>
      cases hok
      exact ⟨rfl, Nat.le_refl _, nofun⟩

theorem grows_addValue {value : Json.Value}
    (hok : before.addValue recovery value = .ok after) :
    Grows recovery 1 before after := by
  unfold addValue at hok
  split at hok
  · cases hok
    exact ⟨rfl, Nat.le_add_right _ _, fun _ => rfl⟩
  · exact grows_addMalformed hok

theorem grows_addLine {line : List UInt8}
    (hok : addLine recovery before line = .ok after) :
    Grows recovery 1 before after := by
  unfold addLine at hok
  split at hok
  · exact grows_addValue hok
  · exact grows_addMalformed hok

/-- What adds one record adds as many as there are in a list. -/
theorem grows_foldlM {α : Type} {add : RecordList → α → Except Failure RecordList}
    (hadd : ∀ before item after, add before item = .ok after →
      Grows recovery 1 before after) {items : List α}
    (hok : items.foldlM add before = .ok after) :
    Grows recovery items.length before after := by
  induction items generalizing before with
  | nil =>
      cases hok
      exact .refl recovery _
  | cons item rest ih =>
      rw [List.foldlM_cons] at hok
      obtain ⟨middle, hmiddle, hrest⟩ := Except.bind_eq_ok.mp hok
      have hboth := (hadd _ _ _ hmiddle).trans (ih hrest)
      rwa [Nat.add_comm] at hboth

theorem grows_ofLines {delimiter : UInt8} {bytes : List UInt8}
    (hok : ofLines recovery delimiter bytes = .ok after) :
    Grows recovery (recordLines delimiter bytes).length empty after :=
  grows_foldlM (fun _ _ _ => grows_addLine) hok

end Grows

end RecordList

/-! ## Bytes that count -/

/-- Bytes that neither separate values nor escape what follows. -/
def isCounted (byte : UInt8) : Bool := byte ≠ 44 && byte ≠ 92

theorem isCounted_of_opensValue {byte : UInt8}
    (hopens : Json.opensValue byte = true) : isCounted byte = true := by
  by_cases hcomma : byte = 44
  · subst hcomma
    exact absurd hopens (by decide)
  by_cases hescape : byte = 92
  · subst hescape
    exact absurd hopens (by decide)
  · simp [isCounted, hcomma, hescape]

/-- A backslash among some bytes is a byte that does not count. -/
theorem countP_isCounted_le (bytes : List UInt8) :
    bytes.countP isCounted + (if 92 ∈ bytes then 1 else 0) ≤
      bytes.countP (· ≠ 44) := by
  induction bytes with
  | nil => exact Nat.le_refl _
  | cons byte rest ih =>
      rw [List.countP_cons, List.countP_cons]
      by_cases hescape : byte = 92
      · subst hescape
        rw [if_pos List.mem_cons_self, if_neg (by decide), if_pos (by decide)]
        omega
      · have hmem : 92 ∈ byte :: rest ↔ 92 ∈ rest := by
          rw [List.mem_cons, or_iff_right (Ne.symm hescape)]
        have hsame : isCounted byte = decide (byte ≠ 44) := by
          simp [isCounted, hescape]
        simp only [hmem, hsame]
        omega

namespace QuoteState

variable {state : QuoteState} {byte : UInt8} {bytes front back : List UInt8}

theorem countP_emission_le (state : QuoteState) (byte : UInt8) :
    ((state.onByte none byte).emit.bytes byte).countP isCounted ≤
      [byte].countP isCounted := by
  have hclass := ByteClass.describes_ofByte none byte
  unfold onByte
  generalize ByteClass.ofByte none byte = byteClass at hclass
  cases hclass with
  | delimiter hbyte => exact absurd hbyte nofun
  | singleQuote _ hbyte | doubleQuote _ hbyte | backslash _ hbyte =>
      subst hbyte
      cases state <;> decide
  | other =>
      cases state with
      | escapeInSingle => exact Nat.le_refl _
      | _ => exact Nat.le_refl _

/-- What is written counts no more than what was read. -/
theorem countP_written_le (state : QuoteState) (bytes : List UInt8) :
    (state.written none bytes).countP isCounted ≤
      bytes.countP isCounted := by
  induction bytes generalizing state with
  | nil => exact Nat.le_refl _
  | cons byte rest ih =>
      rw [written_cons, List.countP_append, ← List.singleton_append,
        List.countP_append]
      exact Nat.add_le_add (state.countP_emission_le byte) (ih _)

/-- The state is not behind a backslash. -/
def Settled (state : QuoteState) : Prop :=
  state ≠ .escapeInDouble ∧ state ≠ .escapeInSingle

theorem Settled.onByte (hsettled : state.Settled) (hbyte : byte ≠ 92) :
    (state.onByte none byte).next.Settled ∧
      ((∃ other, other ≠ 92 ∧
          (state.onByte none byte).emit.bytes byte = [other]) ∨
        (state.onByte none byte).emit.bytes byte = [92, 34]) := by
  have hclass := ByteClass.describes_ofByte none byte
  unfold QuoteState.onByte
  generalize ByteClass.ofByte none byte = byteClass at hclass
  cases state with
  | escapeInDouble => exact absurd rfl hsettled.1
  | escapeInSingle => exact absurd rfl hsettled.2
  | _ =>
      cases hclass with
      | delimiter hdelimiter => exact absurd hdelimiter nofun
      | backslash _ hbackslash => exact absurd hbackslash hbyte
      | _ => simp [transition, Emission.bytes, Settled, hbyte]

/-- Where no backslash is read, one is written only in front of a quote. -/
theorem Settled.countP_pos (hsettled : state.Settled) (hbytes : 92 ∉ bytes)
    (hsplit : state.written none bytes ++ (state.after none bytes).pending =
      front ++ 92 :: back) : 0 < back.countP isCounted := by
  induction bytes generalizing state front with
  | nil =>
      rw [written_nil, List.nil_append, after_nil, pending,
        if_neg hsettled.2] at hsplit
      exact absurd hsplit.symm (by simp)
  | cons byte rest ih =>
      rw [List.mem_cons, not_or] at hbytes
      obtain ⟨hnext, hwritten⟩ := hsettled.onByte (Ne.symm hbytes.1)
      rw [written_cons, after_cons, List.append_assoc] at hsplit
      rcases hwritten with ⟨other, hother, hwritten⟩ | hwritten
      · rw [hwritten] at hsplit
        rcases List.cons_eq_append_iff.mp hsplit with
          ⟨-, hback⟩ | ⟨front, -, hlater⟩
        · exact absurd (List.cons.inj hback).1.symm hother
        · exact ih hnext hbytes.2 hlater
      · rw [hwritten] at hsplit
        rcases List.cons_eq_append_iff.mp hsplit with
          ⟨-, hback⟩ | ⟨front, -, hquote⟩
        · obtain ⟨-, rfl⟩ := List.cons.inj hback
          exact List.countP_pos_iff.mpr ⟨34, List.mem_cons_self, rfl⟩
        · rcases List.cons_eq_append_iff.mp hquote with
            ⟨-, hback⟩ | ⟨front, -, hlater⟩
          · exact absurd (List.cons.inj hback).1 (by decide)
          · exact ih hnext hbytes.2 hlater

end QuoteState

namespace RecordList

variable {recovery : Recovery} {delimiter : UInt8} {steps spare : Nat}
  {before after : RecordList} {bytes : List UInt8}

/-- A step reads a value and adds its items, or the value itself. -/
theorem grows_step {value : Json.Value} {visible rest : List UInt8}
    (hvisible : bytes.dropWhile (isSeparator delimiter) = visible)
    (hsome : visible ≠ [])
    (hparse : Json.parseNext (steps + 1) visible = .ok (value, rest))
    (hok : addValues recovery delimiter (steps + 1) before bytes = .ok after) :
    ∃ middle, Grows recovery value.count before middle ∧
      addValues recovery delimiter steps middle rest = .ok after := by
  rw [addValues, hvisible] at hok
  split at hok
  · exact absurd rfl hsome
  simp only [hparse] at hok
  split at hok
  · obtain ⟨middle, hmiddle, hlater⟩ := Except.bind_eq_ok.mp hok
    exact ⟨middle, grows_foldlM (fun _ _ _ => grows_addValue) hmiddle, hlater⟩
  · next hother =>
      obtain ⟨middle, hmiddle, hlater⟩ := Except.bind_eq_ok.mp hok
      refine ⟨middle, ?_, hlater⟩
      rw [Json.Value.count]
      · exact grows_addValue hmiddle
      · exact hother

/-- Every record of a document has a byte that counts, except that a fault may
begin with a backslash. -/
theorem grows_addValues (spare : Nat)
    (hspare : ∀ front back, bytes = front ++ 92 :: back →
      0 < back.countP isCounted + spare)
    (hok : addValues recovery delimiter steps before bytes = .ok after) :
    ∃ count, Grows recovery count before after ∧
      count ≤ bytes.countP isCounted + spare := by
  induction steps generalizing before bytes with
  | zero =>
      cases hok
      exact ⟨0, .refl recovery _, Nat.zero_le _⟩
  | succ steps ih =>
    obtain ⟨front, hfront⟩ :=
      List.dropWhile_suffix (l := bytes) (isSeparator delimiter)
    cases hvisible : bytes.dropWhile (isSeparator delimiter) with
    | nil =>
        rw [addValues, hvisible] at hok
        cases hok
        exact ⟨0, .refl recovery _, Nat.zero_le _⟩
    | cons first behind =>
      rw [hvisible] at hfront
      have hcount := congrArg (List.countP isCounted) hfront
      rw [List.countP_append] at hcount
      cases hparse : Json.parseNext (steps + 1) (first :: behind) with
      | error fault =>
          simp only [addValues, hvisible, hparse] at hok
          refine ⟨1, grows_addMalformed hok, ?_⟩
          by_cases hescape : first = 92
          · have hbehind := hspare front behind (hescape ▸ hfront.symm)
            have hless :=
              (List.sublist_cons_self first behind).countP_le (p := isCounted)
            omega
          · have hcomma : first ≠ 44 := by
              rintro rfl
              have hnot := List.head?_dropWhile_not (isSeparator delimiter) bytes
              rw [hvisible] at hnot
              simp [isSeparator] at hnot
            have hfirst : isCounted first = true := by
              simp [isCounted, hcomma, hescape]
            rw [List.countP_cons_of_pos hfirst] at hcount
            omega
      | ok result =>
          obtain ⟨value, rest⟩ := result
          obtain ⟨middle, hmiddle, hlater⟩ :=
            grows_step hvisible (List.cons_ne_nil _ _) hparse hok
          have hread := Json.readValue_of_parseNext hparse
          have hvalue :=
            Json.count_readValue_le (fun _ => isCounted_of_opensValue) hread
          obtain ⟨taken, htaken, -⟩ :=
            Json.isLocal_readValue _ _ _ _ _ hread
          obtain ⟨more, hmore, hle⟩ := ih (fun before back hsplit =>
            hspare (front ++ (taken ++ before)) back
              (by rw [← hfront, htaken, hsplit]; simp)) hlater
          exact ⟨_, hmiddle.trans hmore, by omega⟩

theorem grows_ofDocument
    (hok : ofDocument recovery delimiter bytes = .ok after) :
    ∃ count, Grows recovery count empty after ∧
      count ≤ bytes.countP (· ≠ 44) := by
  obtain ⟨count, hgrows, hle⟩ :=
    grows_addValues (if 92 ∈ bytes then 1 else 0) (by
      rintro front back rfl
      rw [if_pos (by simp)]
      omega) hok
  exact ⟨count, hgrows, Nat.le_trans hle (countP_isCounted_le bytes)⟩

/-- A document that was normalized has no more records than it could have had
before. -/
theorem grows_ofDocument_normalText
    (hok : ofDocument recovery delimiter (normalText none bytes) =
      .ok after) :
    ∃ count, Grows recovery count empty after ∧
      count ≤ bytes.countP (· ≠ 44) := by
  have hsettled : QuoteState.outsideString.Settled := ⟨nofun, nofun⟩
  obtain ⟨count, hgrows, hle⟩ :=
    grows_addValues (if 92 ∈ bytes then 1 else 0) (by
      intro front back hsplit
      split
      · omega
      · next hbytes => exact hsettled.countP_pos hbytes hsplit) hok
  have hwritten := QuoteState.outsideString.countP_written_le bytes
  have hpending : ((QuoteState.outsideString.after none bytes).pending).countP
      isCounted = 0 := by
    unfold QuoteState.pending
    split <;> rfl
  have hcounted := countP_isCounted_le bytes
  rw [normalText, List.countP_append, hpending] at hle
  exact ⟨count, hgrows, by omega⟩

end RecordList

end JsonIntake
