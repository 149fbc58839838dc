import JsonIntake.Proofs.Json.Extent

/-!
# How far strings go

A string ends at the first quote that no escape stands in front of.  What its
reader takes leads from the opening quote to the place behind the closing one,
whatever follows.
-/

namespace JsonIntake.Json

/-! ## Escapes -/

theorem leads_hexDigit {byte : UInt8} {digit : Nat}
    (hdigit : hexValue? byte = some digit) : Leads .inside .inside [byte] := by
  apply Leads.character
  · rintro rfl
    exact absurd hdigit nofun
  · rintro rfl
    exact absurd hdigit nofun

theorem isLocal_readHexUnit :
    IsLocal .anything .inside .inside fun _ => readHexUnit := by
  apply IsLocal.of_front
  intro steps input unit rest hok
  match input with
  | [] => exact absurd hok nofun
  | [_] => exact absurd hok nofun
  | [_, _] => exact absurd hok nofun
  | [_, _, _] => exact absurd hok nofun
  | a :: b :: c :: d :: behind =>
    simp only [readHexUnit] at hok
    split at hok
    next ha hb hc hd =>
      refine ⟨[a, b, c, d], behind, _, rfl,
        (leads_hexDigit ha).append ((leads_hexDigit hb).append
          ((leads_hexDigit hc).append (leads_hexDigit hd))), .ok unit, ?_⟩
      intro _ later _
      simp only [List.cons_append, List.nil_append, readHexUnit, ha, hb, hc,
        hd]
      cases hok
      rfl
    · exact absurd hok nofun

/-- The second half of a surrogate pair, behind the mark of its escape. -/
def readTrailing (first : Nat) : Reader Nat := fun input => do
  let (second, rest) ← readHexUnit input
  if isTrailingSurrogate second then
    .ok (0x10000 + (first - 0xd800) * 0x400 + (second - 0xdc00), rest)
  else stopHere .loneSurrogate rest

theorem isLocal_readTrailing (first : Nat) :
    IsLocal .anything .inside .inside fun _ => readTrailing first := by
  refine IsLocal.bind
    (fun second _ rest =>
      if isTrailingSurrogate second then
        .ok (0x10000 + (first - 0xd800) * 0x400 + (second - 0xdc00), rest)
      else stopHere .loneSurrogate rest) isLocal_readHexUnit ?_
  intro second
  split
  · exact .ok _
  · exact .error _

/-- What stands behind the first unit of an escape. -/
def readBehindUnit (first : Nat) : Reader Nat := fun rest =>
  if isTrailingSurrogate first then stopHere .loneSurrogate rest
  else if isLeadingSurrogate first then do
    let rest ← readPairByte 92 rest
    let rest ← readPairByte 117 rest
    readTrailing first rest
  else .ok (first, rest)

theorem readPairByte_eq_ok {expected : UInt8} {input rest : List UInt8}
    (hok : readPairByte expected input = .ok rest) :
    input = expected :: rest := by
  cases input with
  | nil => exact absurd hok nofun
  | cons byte behind =>
      simp only [readPairByte] at hok
      split at hok
      next hbyte =>
        cases hok
        rw [hbyte]
      · exact absurd hok nofun

theorem isLocal_readBehindUnit (first : Nat) :
    IsLocal .anything .inside .inside fun _ => readBehindUnit first := by
  apply IsLocal.of_front
  intro steps input code rest hok
  by_cases htrailing : isTrailingSurrogate first = true
  · simp only [readBehindUnit, if_pos htrailing] at hok
    exact absurd hok nofun
  by_cases hleading : isLeadingSurrogate first = true
  · simp only [readBehindUnit, if_neg htrailing, if_pos hleading] at hok
    cases hescape : readPairByte 92 input with
    | error stop =>
        rw [hescape] at hok
        exact absurd hok nofun
    | ok middle =>
        obtain rfl := readPairByte_eq_ok hescape
        rw [hescape] at hok
        cases hmark : readPairByte 117 middle with
        | error stop =>
            have hstop : (readPairByte 117 middle).bind
                (readTrailing first) = .ok (code, rest) := hok
            rw [hmark] at hstop
            exact absurd hstop nofun
        | ok behind =>
            obtain rfl := readPairByte_eq_ok hmark
            refine ⟨[92, 117], behind, _, rfl, .escape 117,
              isLocal_readTrailing first, ?_⟩
            intro _ later _
            simp only [readBehindUnit, if_neg htrailing, if_pos hleading]
            rfl
  · refine ⟨[], input, _, rfl, .nil, .ok first, ?_⟩
    intro _ later _
    simp only [readBehindUnit, if_neg htrailing, if_neg hleading]
    rfl

theorem isLocal_readCodePoint :
    IsLocal .anything .inside .inside fun _ => readCodePoint :=
  IsLocal.bind (fun first _ => readBehindUnit first)
    isLocal_readHexUnit isLocal_readBehindUnit

theorem leads_escaped (byte : UInt8) : Leads .escaped .inside [byte] :=
  .single fun _ => rfl

theorem isLocal_readEscape :
    IsLocal .anything .escaped .inside fun _ => readEscape := by
  apply IsLocal.of_front
  intro steps input bytes rest hok
  unfold readEscape at hok
  split at hok
  case h_1 => exact absurd hok nofun
  case h_10 behind =>
    exact ⟨[117], behind, _, rfl, leads_escaped 117,
      IsLocal.bind
        (fun code _ rest =>
          .ok (String.utf8EncodeChar (Char.ofNat code), rest))
        isLocal_readCodePoint (fun _ => .ok _), fun _ _ _ => rfl⟩
  case h_11 => exact absurd hok nofun
  all_goals
    exact ⟨[_], _, _, rfl, leads_escaped _, .ok _, fun _ _ _ => rfl⟩

/-! ## Strings -/

theorem readStringBytes_character {byte : UInt8} (hquote : byte ≠ 34)
    (hescape : byte ≠ 92) (steps : Nat) (read rest : List UInt8) :
    readStringBytes (steps + 1) read (byte :: rest) =
      if byte < 32 then stopHere .controlCharacter rest
      else readStringBytes steps (byte :: read) rest := by
  rw [readStringBytes]
  · exact hquote
  · exact hescape

theorem isLocal_readStringBytes (read : List UInt8) :
    IsLocal .anything .inside .outside fun steps =>
      readStringBytes steps read := by
  intro steps
  induction steps generalizing read with
  | zero => exact nofun
  | succ steps ih =>
    intro input value rest (hok : readStringBytes _ _ _ = _)
    cases input with
    | nil => exact absurd hok nofun
    | cons byte behind =>
      by_cases hquote : byte = 34
      · subst hquote
        cases hok
        refine ⟨[34], rfl, .single fun _ => rfl, ?_⟩
        rintro (_ | steps) later hsteps -
        · exact absurd hsteps (Nat.not_lt_zero _)
        · rfl
      by_cases hescape : byte = 92
      · subst hescape
        simp only [readStringBytes] at hok
        cases hbytes : readEscape behind with
        | error stop =>
            simp only [hbytes] at hok
            exact absurd hok nofun
        | ok result =>
            obtain ⟨bytes, middle⟩ := result
            simp only [hbytes] at hok
            obtain ⟨front, rfl, hfront⟩ :=
              isLocal_readEscape 0 behind bytes middle hbytes
            obtain ⟨taken, rfl, htakes⟩ :=
              ih (bytes.reverse ++ read) middle value rest hok
            refine ⟨92 :: front ++ taken, by simp,
              .step (.cons (fun _ => rfl) hfront.leads)
                (List.cons_ne_nil _ _) htakes ?_⟩
            intro steps later _ _
            have hagain :=
              hfront.again (front.length + 1) (taken ++ later)
                (Nat.lt_succ_self _) trivial
            simp only [List.cons_append, readStringBytes, hagain]
      · rw [readStringBytes_character hquote hescape] at hok
        split at hok
        · exact absurd hok nofun
        next hcontrol =>
          obtain ⟨taken, rfl, htakes⟩ :=
            ih (byte :: read) behind value rest hok
          refine ⟨[byte] ++ taken, rfl,
            .step (.character hquote hescape) (List.cons_ne_nil _ _) htakes
              ?_⟩
          intro steps later _ _
          rw [List.singleton_append,
            readStringBytes_character hquote hescape, if_neg hcontrol]

theorem readString_of_bytes {steps : Nat} {input bytes rest : List UInt8}
    {text : String} (hbytes : readStringBytes steps [] input = .ok (bytes, rest))
    (htext : String.fromUTF8? ⟨bytes.toArray⟩ = some text) :
    readString steps input = .ok (text, rest) := by
  simp only [readString, hbytes, bind, Except.bind, htext]

theorem isLocal_readString :
    IsLocal .anything .inside .outside readString := by
  intro steps input text rest hok
  cases hbytes : readStringBytes steps [] input with
  | error stop =>
      unfold readString at hok
      rw [hbytes] at hok
      exact absurd hok nofun
  | ok result =>
      obtain ⟨bytes, behind⟩ := result
      cases htext : String.fromUTF8? ⟨bytes.toArray⟩ with
      | none =>
          simp only [readString, hbytes, bind, Except.bind, htext] at hok
          exact absurd hok nofun
      | some found =>
          rw [readString_of_bytes hbytes htext] at hok
          cases hok
          obtain ⟨taken, rfl, htakes⟩ :=
            isLocal_readStringBytes [] steps input bytes rest hbytes
          exact ⟨taken, rfl, htakes.leads,
            fun steps later hsteps hallows =>
              readString_of_bytes (htakes.again steps later hsteps hallows)
                htext⟩

end JsonIntake.Json
