import CodeInsight.Proofs.FoundSites
import CodeInsight.Receiver.Repair

/-!
# Repaired copies line up

Code that is being typed is analysed in copies: what is being typed is blanked out, or ended by a
semicolon. All that is reported about a copy is reported as places of the text, so the copies must
not move anything. Byte for byte, a copy is the text but for the token that is blanked out and one
byte that is made a semicolon; only behind the end of the text may that byte be a new one.

## Main Results

- `needsTerminator_iff`: when an expression is not ended by what follows it
- `neutralize_append`: a text in which a part is blanked out
- `blankedOut_neutralize`: its bytes
- `endedAt_terminateAt?`: the bytes of a text in which an expression is ended
- `linesUp_of_mem_candidates`: the bytes of the texts that are analysed
- `repaired_texts_line_up`: the bytes of all copies
-/

namespace CodeInsight.Receiver

/-! ## Section 1: Ends of expressions -/

/-- What follows an expression leaves it open: nothing but blanks, or something that does not end
it. -/
def LeavesOpen (rest : Text) : Prop :=
  ∀ c, rest.find? (fun c => !Text.isBlank c) = some c → c ∉ [';', ')', ',', ']']

theorem head?_trimStart (rest : Text) :
    (Text.trimStart rest).head? = rest.find? fun c => !Text.isBlank c := by
  induction rest with
  | nil => rfl
  | cons c cs ih =>
    cases hblank : Text.isBlank c with
    | false => simp [Text.trimStart, hblank]
    | true => simpa [Text.trimStart, hblank] using ih

theorem needsTerminator_iff (rest : Text) : needsTerminator rest = true ↔ LeavesOpen rest := by
  unfold needsTerminator LeavesOpen
  rw [head?_trimStart]
  cases rest.find? (fun c => !Text.isBlank c) with
  | none => simp
  | some c => simp [isEnding, and_assoc]

/-! ## Section 2: Blanking out -/

/-- What is put in the place of a part that is blanked out, in front of `rest`. -/
def blanked (size : Nat) (rest : Text) : Text :=
  if needsTerminator rest then ';' :: List.replicate (size - 1) ' ' else List.replicate size ' '

/-- **A part is blanked out** in its place. -/
theorem neutralize_append (a b : Text) {x : Text} (hx : x ≠ []) :
    neutralize (a ++ (x ++ b)) ⟨Text.size a, Text.size (a ++ x)⟩ = a ++
      (blanked (Text.size x) b ++ b) := by
  have hstart : Text.floor (a ++ (x ++ b)) (Text.size a) = Text.size a := Text.floor_size a (x ++ b)
  have hstop : Text.floor (a ++ (x ++ b)) (Text.size (a ++ x)) = Text.size (a ++ x) := by
    rw [← List.append_assoc]
    exact Text.floor_size (a ++ x) b
  have hmax : max (Text.size a) (Text.size (a ++ x)) = Text.size (a ++ x) := by
    rw [Text.size_append]
    omega
  have hrest : Text.after (a ++ (x ++ b)) (Text.size (a ++ x)) = b := by
    rw [← List.append_assoc]
    exact Text.after_size (a ++ x) b
  have hlength : Text.size (a ++ x) - Text.size a = Text.size x := by
    rw [Text.size_append]
    omega
  -- there is room for the semicolon, because the part takes at least one byte
  obtain ⟨n, hn⟩ : ∃ n, Text.size x = n + 1 :=
    Nat.exists_eq_succ_of_ne_zero fun hzero => hx (Text.size_eq_zero_iff.mp hzero)
  have hterminate : terminate? a (List.replicate (Text.size x) ' ' ++ b) =
      some (a ++ ';' :: (List.replicate n ' ' ++ b)) := by
    rw [hn, List.replicate_succ, List.cons_append, terminate?, if_pos (by decide)]
  unfold neutralize blanked
  dsimp only
  rw [hstart, hstop, hmax, hrest, hlength, Text.before_size, hterminate, hn]
  split
  next => rfl
  next => rfl

/-- A part that is blanked out takes as many bytes as before. -/
theorem encode_blanked {n : Nat} (hn : 0 < n) (rest : Text) :
    Text.encode (blanked n rest) =
      (if needsTerminator rest then ';'.toUInt8 else ' '.toUInt8) :: List.replicate
      (n - 1) ' '.toUInt8 := by
  have hspaces : ∀ n, Text.encode (List.replicate n ' ') = List.replicate n ' '.toUInt8 := by
    intro n
    induction n with
    | zero => exact Text.encode_nil
    | succ n ih => rw [List.replicate_succ, Text.encode_cons_ascii rfl, ih, List.replicate_succ]
  unfold blanked
  split
  next => rw [Text.encode_cons_ascii rfl, hspaces]
  next =>
    obtain ⟨n, rfl⟩ := Nat.exists_eq_succ_of_ne_zero (Nat.ne_of_gt hn)
    rw [hspaces]
    rfl

/-- A copy of a text in which a range is blanked out, byte by byte. -/
structure BlankedOut (text : Text) (range : Span) (copy : Text) : Prop where
  length_eq : (Text.encode copy).length = (Text.encode text).length
  outside : ∀ i, i < range.start ∨ range.stop ≤ i → (Text.encode copy)[i]? = (Text.encode text)[i]?
  inside : ∀ i, range.start < i → i < range.stop → (Text.encode copy)[i]? = some ' '.toUInt8
  /-- The first byte ends the expression where what follows the range leaves it open. -/
  semicolon : LeavesOpen (Text.after text range.stop) →
    (Text.encode copy)[range.start]? = some ';'.toUInt8
  blank : ¬LeavesOpen (Text.after text range.stop) → (Text.encode copy)[range.start]? =
    some ' '.toUInt8

/-- **Blanking out** changes the bytes of the range only. -/
theorem blankedOut_neutralize {text : Text} {range : Span} (hlt : range.start < range.stop)
    (hstart : Text.isBoundary text range.start = true)
    (hstop : Text.isBoundary text range.stop = true) :
    BlankedOut text range (neutralize text range) := by
  obtain ⟨start, stop⟩ := range
  obtain ⟨a, x, b, rfl, rfl, rfl⟩ := Text.exists_part hstart hstop (Nat.le_of_lt hlt)
  dsimp only at hlt
  rw [Text.size_append] at hlt
  have hpos : 0 < Text.size x := by omega
  have hx : x ≠ [] := fun hnil => Nat.ne_of_gt hpos (Text.size_eq_zero_iff.mpr hnil)
  have hrest : Text.after (a ++ (x ++ b)) (Text.size (a ++ x)) = b := by
    rw [← List.append_assoc]
    exact Text.after_size (a ++ x) b
  -- both texts by their bytes: what comes before, the range and what comes behind
  have hcopy : Text.encode (a ++ (blanked (Text.size x) b ++ b)) =
      Text.encode a ++ (((if needsTerminator b then ';'.toUInt8 else ' '.toUInt8) ::
        List.replicate (Text.size x - 1) ' '.toUInt8) ++ Text.encode b) := by
    rw [Text.encode_append, Text.encode_append, encode_blanked hpos]
  have htext : Text.encode (a ++ (x ++ b)) = Text.encode a ++ (Text.encode x ++ Text.encode b) := by
    rw [Text.encode_append, Text.encode_append]
  have hfirst : (Text.encode (a ++ (blanked (Text.size x) b ++ b)))[Text.size a]? =
      some (if needsTerminator b then ';'.toUInt8 else ' '.toUInt8) := by
    rw [hcopy, List.getElem?_append_right (by rw [Text.length_encode]), Text.length_encode,
      Nat.sub_self]
    rfl
  rw [neutralize_append a b hx]
  -- the length, the bytes outside of the range, those within it, and the first of these
  refine ⟨?_, fun i hi => ?_, fun i hi hi' => ?_, fun hopen => ?_, fun hended => ?_⟩
  · rw [hcopy, htext]
    simp only [List.length_append, List.length_cons, List.length_replicate, Text.length_encode]
    omega
  · rw [hcopy, htext]
    dsimp only at hi
    rw [Text.size_append] at hi
    simp only [List.getElem?_append, List.length_cons, List.length_replicate, Text.length_encode]
    rcases hi with hi | hi
    · rw [if_pos hi, if_pos hi]
    · rw [if_neg (by omega), if_neg (by omega), if_neg (by omega), if_neg (by omega)]
      congr 1
      omega
  · dsimp only at hi hi'
    rw [Text.size_append] at hi'
    obtain ⟨n, hn⟩ : ∃ n, i - Text.size a = n + 1 := ⟨i - Text.size a - 1, by omega⟩
    rw [hcopy, List.getElem?_append_right (by rw [Text.length_encode]; omega),
      Text.length_encode, hn, List.cons_append, List.getElem?_cons_succ,
      List.getElem?_append_left (by simp; omega), List.getElem?_replicate, if_pos (by omega)]
  · rw [hrest] at hopen
    rw [hfirst, if_pos ((needsTerminator_iff b).mpr hopen)]
  · rw [hrest] at hended
    rw [hfirst, if_neg fun hneeds => hended ((needsTerminator_iff b).mp hneeds)]

/-! ## Section 3: Ending -/

/-- A copy of a text in which an expression is ended at a place, byte by byte: a blank is
overwritten, or a byte is added behind the end. -/
inductive EndedAt (text : Text) (place : Nat) (copy : Text) : Prop where
  | overwritten (c : Char) (isSpace : Text.isSpace c = true)
      (there : (Text.encode text)[place]? = some c.toUInt8)
      (copied : Text.encode copy = (Text.encode text).set place ';'.toUInt8)
  | appended (there : place = (Text.encode text).length)
      (copied : Text.encode copy = Text.encode text ++ [';'.toUInt8])

theorem utf8Size_of_isSpace {c : Char} (h : Text.isSpace c = true) : c.utf8Size = 1 := by
  simp only [Text.isSpace, Bool.or_eq_true, beq_iff_eq] at h
  rcases h with (((rfl | rfl) | rfl) | rfl) | rfl <;> rfl

/-- **Ending an expression** changes one byte. -/
theorem endedAt_terminateAt? {text copy : Text} {offset : Nat}
    (h : terminateAt? text offset = some copy) :
    EndedAt text (Text.floor text offset) copy := by
  obtain ⟨a, b, htext, hplace⟩ := Text.exists_floor text offset
  unfold terminateAt? at h
  dsimp only at h
  rw [← hplace, htext, Text.after_size, Text.before_size] at h
  rw [← hplace, htext]
  split at h
  -- Only an open expression is ended: at the end of the text, or in the place of a blank.
  next =>
    cases b with
    | nil =>
      obtain rfl := Option.some.inj h
      apply EndedAt.appended
      · rw [List.append_nil, Text.length_encode]
      · rw [List.append_nil, Text.encode_append, Text.encode_cons_ascii rfl, Text.encode_nil]
    | cons c rest =>
      rw [terminate?] at h
      split at h
      next hspace =>
        obtain rfl := Option.some.inj h
        have hbytes := Text.encode_cons_ascii (utf8Size_of_isSpace hspace) rest
        apply EndedAt.overwritten c hspace
        · rw [Text.encode_append, hbytes, List.getElem?_append_right (by rw [Text.length_encode]),
            Text.length_encode, Nat.sub_self]
          rfl
        · rw [Text.encode_append, Text.encode_append, hbytes, Text.encode_cons_ascii rfl,
            List.set_append_right _ _ (by rw [Text.length_encode]), Text.length_encode,
              Nat.sub_self]
          rfl
      next => cases h
  next => cases h

end CodeInsight.Receiver

namespace CodeInsight.Resolution

open Receiver

/-! ## Section 4: The texts that are analysed -/

/-- The token that may be blanked out. -/
def Site.token? : Site → Option Span
  | .fetch site => some site.tail
  | .variable site => some site.token
  | .other => none

/-- Where the expression may be ended: with the token, or behind it. -/
def Site.ending (text : Text) (offset : Nat) : Site → Nat
  | .fetch site => site.tail.start
  | .variable site => site.token.stop
  | .other => Text.floor text offset

/-- A copy has the bytes of a text, but for those of a token and one more. -/
structure LinesUp (text : Text) (token : Option Span) (place : Nat) (copy : Text) : Prop where
  length_ge : (Text.encode text).length ≤ (Text.encode copy).length
  length_le : (Text.encode copy).length ≤ (Text.encode text).length + 1
  agrees : ∀ i, i ≠ place → (∀ range ∈ token, i < range.start ∨ range.stop ≤ i) →
    (Text.encode copy)[i]? = (Text.encode text)[i]?

section

variable {text copy : Text} {token : Option Span} {place : Nat}

theorem LinesUp.refl (text : Text) (token : Option Span) (place : Nat) :
    LinesUp text token place text :=
  ⟨Nat.le_refl _, Nat.le_succ _, fun _ _ _ => rfl⟩

theorem linesUp_of_blankedOut {range : Span} (h : BlankedOut text range copy) (place : Nat) :
    LinesUp text (some range) place copy :=
  ⟨Nat.le_of_eq h.length_eq.symm, by rw [h.length_eq]; exact Nat.le_succ _,
    fun i _ houtside => h.outside i (houtside range rfl)⟩

theorem linesUp_of_endedAt (h : EndedAt text place copy) (token : Option Span) :
    LinesUp text token place copy := by
  cases h with
  | overwritten c _ _ hcopied =>
    have hlength : (Text.encode copy).length = (Text.encode text).length := by
      rw [hcopied, List.length_set]
    refine ⟨Nat.le_of_eq hlength.symm, by omega, fun i hi _ => ?_⟩
    rw [hcopied, List.getElem?_set_ne hi.symm]
  | appended hplace hcopied =>
    have hlength : (Text.encode copy).length = (Text.encode text).length + 1 := by
      rw [hcopied, List.length_append, List.length_singleton]
    refine ⟨by omega, Nat.le_of_eq hlength, fun i hi _ => ?_⟩
    rw [hcopied]
    -- the place is the end of the text, so an offset is in front of it or there is no such byte
    rcases Nat.lt_or_ge i (Text.encode text).length with hlt | hge
    · exact List.getElem?_append_left hlt
    · rw [List.getElem?_eq_none (by rw [List.length_append, List.length_singleton]; omega),
        List.getElem?_eq_none hge]

end

/-- **Every text that is analysed** lines up with the text at the cursor. -/
theorem linesUp_of_mem_candidates {text candidate : Text} {offset : Nat}
    (h : candidate ∈ candidates text offset (siteAt text offset)) :
    LinesUp text (siteAt text offset).token? ((siteAt text offset).ending text offset)
      candidate := by
  -- That the ranges of a site begin and end between characters is what blanking out needs.
  cases hsite : siteAt text offset with
  | fetch site =>
    have hformed := wellFormed_of_fetchSite? (siteAt_eq_fetch hsite)
    rw [hsite] at h
    simp only [candidates, List.mem_cons, List.not_mem_nil, or_false] at h
    rcases h with rfl | rfl
    · apply linesUp_of_blankedOut
      exact blankedOut_neutralize hformed.tail_lt (hformed.boundaries _ (by simp))
        (hformed.boundaries _ (by simp))
    · exact LinesUp.refl _ _ _
  | «variable» site =>
    have hformed := wellFormed_of_variableSite? (siteAt_eq_variable hsite)
    have hstop : Text.isBoundary text site.token.stop = true := hformed.boundaries _ (by simp)
    rw [hsite] at h
    simp only [candidates, List.mem_cons, List.mem_append, Option.mem_toList,
      List.not_mem_nil, or_false, List.cons_append] at h
    rcases h with rfl | hended | rfl
    · exact LinesUp.refl _ _ _
    -- The end of the token is a boundary already, so it is not moved.
    · have hplace := endedAt_terminateAt? hended
      rw [Text.floor_eq_self hstop] at hplace
      exact linesUp_of_endedAt hplace _
    · apply linesUp_of_blankedOut
      exact blankedOut_neutralize (Nat.lt_of_lt_of_le hformed.holds.1 hformed.holds.2)
        (hformed.boundaries _ (by simp)) hstop
  | other =>
    rw [hsite] at h
    simp only [candidates, List.mem_cons, Option.mem_toList] at h
    rcases h with rfl | hended
    · exact LinesUp.refl _ _ _
    · exact linesUp_of_endedAt (endedAt_terminateAt? hended) _

/-- **Repaired copies line up with the text.** Blanking out a range that begins and ends between
characters changes no byte outside of it, and leaves spaces in it, the first of which is a semicolon
just if what follows leaves the expression open. Ending an expression makes a semicolon of the blank
at the last boundary up to the offset, or adds one behind the end. So each of the texts that are
analysed for an offset has the bytes of the text but for the token at the offset and one more, and
at most one byte is added. -/
theorem repaired_texts_line_up (text : Text) :
    (∀ range : Span, range.start < range.stop → Text.isBoundary text range.start = true →
      Text.isBoundary text range.stop = true → BlankedOut text range (neutralize text range)) ∧
      (∀ offset copy, terminateAt? text offset = some copy →
        Text.IsFloor text offset (Text.floor text offset) ∧
          EndedAt text (Text.floor text offset) copy) ∧
      ∀ offset, ∀ candidate ∈ candidates text offset (siteAt text offset),
        LinesUp text (siteAt text offset).token? ((siteAt text offset).ending text offset)
          candidate :=
  ⟨fun _ hlt hstart hstop => blankedOut_neutralize hlt hstart hstop,
    fun offset _ h => ⟨Text.isFloor_floor text offset, endedAt_terminateAt? h⟩,
    fun _ _ h => linesUp_of_mem_candidates h⟩

/-- A fetch of a member whose name has a character of two bytes. -/
def umlautText : Text := "$x->ü ".toList

theorem umlaut_fetch_lines_up :
    neutralize umlautText ⟨2, 6⟩ = "$x;    ".toList ∧
      BlankedOut umlautText ⟨2, 6⟩ (neutralize umlautText ⟨2, 6⟩) ∧
      terminateAt? umlautText 9 = some "$x->ü ;".toList ∧ EndedAt umlautText 7 "$x->ü ;".toList ∧
      "$x;    ".toList ∈ candidates umlautText 6 (siteAt umlautText 6) ∧
      LinesUp umlautText (some ⟨2, 6⟩) 2 "$x;    ".toList := by
  obtain ⟨hblanked, hended, hanalysed⟩ := repaired_texts_line_up umlautText
  have hsite : siteAt umlautText 6 = .fetch ⟨⟨0, 2⟩, false, "ü", "ü", ⟨2, 6⟩⟩ := by decide +kernel
  have hend : terminateAt? umlautText 9 = some "$x->ü ;".toList := by decide +kernel
  have hfloor : Text.floor umlautText 9 = 7 := by decide +kernel
  have hmem : "$x;    ".toList ∈ candidates umlautText 6 (siteAt umlautText 6) := by decide +kernel
  have hended := (hended 9 _ hend).2
  have hanalysed := hanalysed 6 _ hmem
  rw [hfloor] at hended
  rw [hsite] at hanalysed
  exact ⟨by decide +kernel, hblanked ⟨2, 6⟩ (by decide) (by decide +kernel) (by decide +kernel),
    hend, hended, hmem, hanalysed⟩

end CodeInsight.Resolution
