import CodeInsight.Proofs.FoundSites

/-!
# Scans over bytes

What stands at a cursor can be found without decoding a text. The scans then go over bytes: those of
ASCII are told apart, and all the bytes of longer characters count as parts of words. So no scan
stops within a character, and what is found by its bytes is what is found by its characters.

## Main Results

- `Bytewise.word_meets`: a byte is part of a word exactly if its character is
- `Bytewise.chainStart?_backwards`: where a chain begins, by bytes and by characters
- `Bytewise.clamp_encode`: the last boundary up to an offset
- `Bytewise.read?_fetchRanges?`, `Bytewise.read?_variableRanges?`: the sites that are found, and
  that the text can be cut there
- `sites_are_well_formed`: the ranges of all sites
-/

namespace CodeInsight.Receiver.Bytewise

/-! ## Section 1: The scans -/

def isWordByte (b : UInt8) : Bool :=
  ('0'.toUInt8 ≤ b && b ≤ '9'.toUInt8) || ('A'.toUInt8 ≤ b && b ≤ 'Z'.toUInt8) ||
    ('a'.toUInt8 ≤ b && b ≤ 'z'.toUInt8) || b == '_'.toUInt8 || 0x80 ≤ b

def isNameByte (b : UInt8) : Bool := isWordByte b || b == '\\'.toUInt8

def isSpaceByte (b : UInt8) : Bool :=
  b == ' '.toUInt8 || b == '\t'.toUInt8 || b == '\n'.toUInt8 || b == '\r'.toUInt8 ||
    b == '\x0c'.toUInt8

def skipSpaces (back : Bytes) : Bytes := back.dropWhile isSpaceByte

/-- Steps over marks of ASCII. -/
def over? : Text → Bytes → Option Bytes
  | [], back => some back
  | _ :: _, [] => none
  | mark :: marks, b :: back => if b = mark.toUInt8 then over? marks back else none

def operator? (back : Bytes) : Option (Bytes × Bool) := do
  let rest ← over? ['>', '-'] back
  return match over? ['?'] rest with
    | some rest => (rest, true)
    | none => (rest, false)

/-- Steps out of `depth` groups in parentheses. -/
def leaveGroups : Nat → Bytes → Option Bytes
  | _, [] => none
  | depth, b :: rest =>
    if b = ')'.toUInt8 then leaveGroups (depth + 1) rest
    else if b = '('.toUInt8 then if depth ≤ 1 then some rest else leaveGroups (depth - 1) rest
    else leaveGroups depth rest

def dollar (back : Bytes) : Bytes := (over? ['$'] back).getD back

def link? (back : Bytes) : Option Bytes :=
  match over? [')'] back with
  | some rest => do
    let opened ← leaveGroups 1 rest
    let named := opened.dropWhile isNameByte
    return if named.length < opened.length then dollar named else named
  | none =>
    let start := dollar (back.dropWhile isWordByte)
    if start.length < back.length then some start else none

def newBefore? (before start : Bytes) : Option Bytes := do
  let rest ← over? ['w', 'e', 'n'] before
  if before.length < start.length && !rest.head?.any isWordByte then some rest else none

def continued? (before : Bytes) : Option Bytes :=
  match operator? before with
  | some (rest, _) => some (skipSpaces rest)
  | none => do
    let rest ← over? [':', ':'] before
    return skipSpaces rest

/-- Steps over a chain of at most `fuel` links. -/
def chain? : Nat → Bytes → Option Bytes
  | 0, _ => none
  | fuel + 1, back => do
    let start ← link? back
    let before := skipSpaces start
    match continued? before with
    | some rest => chain? fuel rest
    | none => return (newBefore? before start).getD start

def chainStart? (back : Bytes) : Option Bytes := chain? (back.length + 1) back

/-- A byte with which a character goes on. -/
def isContinuation (b : UInt8) : Bool := 0x80 ≤ b && b < 0xc0

/-- Goes back to where a character begins. -/
def clampFrom (bytes : Bytes) : Nat → Nat
  | 0 => 0
  | place + 1 => if bytes[place + 1]?.any isContinuation then clampFrom bytes place else place + 1

def clamp (bytes : Bytes) (offset : Nat) : Nat := clampFrom bytes (min offset bytes.length)

/-- Where a fetch stands, in bytes. -/
structure FetchRanges where
  receiver : Span
  nullsafe : Bool
  typed : Span
  member : Span
  tail : Span

/-- The bytes before the cursor, backwards, and those behind it. -/
def around (bytes : Bytes) (offset : Nat) : Bytes × Bytes :=
  ((bytes.take (clamp bytes offset)).reverse, bytes.drop (clamp bytes offset))

def fetchRanges? (bytes : Bytes) (offset : Nat) : Option FetchRanges := do
  let (back, ahead) := around bytes offset
  let memberStart := back.dropWhile isWordByte
  let memberEnd := back.length + (ahead.takeWhile isWordByte).length
  let (beforeOperator, nullsafe) ← operator? (skipSpaces memberStart)
  let receiverEnd := skipSpaces beforeOperator
  let receiverStart ← chainStart? receiverEnd
  guard (receiverStart.length ≠ receiverEnd.length)
  return {
    receiver := ⟨receiverStart.length, receiverEnd.length⟩
    nullsafe
    typed := ⟨memberStart.length, back.length⟩
    member := ⟨memberStart.length, memberEnd⟩
    tail := ⟨beforeOperator.length, memberEnd⟩ }

/-- The site of a fetch, if the text can be cut at its ranges. -/
def FetchRanges.read? (text : Text) (ranges : FetchRanges) : Option FetchSite := do
  let typed ← Text.slice? text ranges.typed.start ranges.typed.stop
  let member ← Text.slice? text ranges.member.start ranges.member.stop
  return { receiver := ranges.receiver, nullsafe := ranges.nullsafe, typed := String.ofList typed
           member := String.ofList member, tail := ranges.tail }

/-- Where a variable stands, in bytes. -/
structure VariableRanges where
  typed : Span
  token : Span

def variableRanges? (bytes : Bytes) (offset : Nat) : Option VariableRanges := do
  let (back, ahead) := around bytes offset
  let rest ← over? ['$'] (back.dropWhile isWordByte)
  return {
    typed := ⟨rest.length, back.length⟩
    token := ⟨rest.length, back.length + (ahead.takeWhile isWordByte).length⟩ }

/-- The site of a variable, if the text can be cut where it has been typed. -/
def VariableRanges.read? (text : Text) (ranges : VariableRanges) : Option VariableSite := do
  let typed ← Text.slice? text ranges.typed.start ranges.typed.stop
  return { typed := String.ofList typed, token := ranges.token }

/-! ## Section 2: Classes of bytes -/

theorem utf8Size_eq_one_iff {c : Char} : c.utf8Size = 1 ↔ c.val.toNat < 128 := by
  rw [Char.utf8Size_eq_one_iff, UInt32.le_iff_toNat_le]
  exact Nat.lt_succ_iff.symm

/-- All the bytes of a longer character lie beyond ASCII. -/
theorem le_of_mem_utf8EncodeChar {c : Char} (hc : c.utf8Size ≠ 1) {b : UInt8}
    (hb : b ∈ String.utf8EncodeChar c) : 0x80 ≤ b := by
  have hlong : ¬ c.val.toNat ≤ 127 := fun hle =>
    hc (utf8Size_eq_one_iff.mpr (Nat.lt_succ_of_le hle))
  have hbyte : ∀ n, 128 ≤ n → n < 256 → 0x80 ≤ UInt8.ofNat n := fun n hle hlt => by
    rw [UInt8.le_iff_toNat_le, UInt8.toNat_ofNat_of_lt' hlt]
    exact hle
  simp only [String.utf8EncodeChar, if_neg hlong] at hb
  -- by the number of bytes
  split at hb
  next =>
    simp only [List.mem_cons, List.not_mem_nil, or_false] at hb
    rcases hb with rfl | rfl <;> exact hbyte _ (by omega) (by omega)
  next =>
    split at hb
    all_goals
      simp only [List.mem_cons, List.not_mem_nil, or_false] at hb
    · rcases hb with rfl | rfl | rfl <;> exact hbyte _ (by omega) (by omega)
    · rcases hb with rfl | rfl | rfl | rfl <;> exact hbyte _ (by omega) (by omega)

/-- The bytes of a character are in a class of bytes if and only if the character is in a class. -/
def Meets (p : UInt8 → Bool) (q : Char → Bool) : Prop :=
  ∀ c, ∀ b ∈ String.utf8EncodeChar c, p b = q c

/-- Classes meet if they do so within ASCII, and what is beyond is in both of them or in neither. -/
theorem Meets.of_ascii {p : UInt8 → Bool} {q : Char → Bool} (beyond : Bool)
    (hascii : ∀ n : Fin 128, p (Char.ofNat n).toUInt8 = q (Char.ofNat n))
    (hp : ∀ b, 0x80 ≤ b → p b = beyond) (hq : ∀ c : Char, 0x80 ≤ c.val → q c = beyond) :
    Meets p q := by
  intro c b hb
  by_cases hc : c.utf8Size = 1
  · rw [String.utf8EncodeChar_eq_singleton hc] at hb
    obtain rfl := List.mem_singleton.mp hb
    have hmeets := hascii ⟨c.toNat, utf8Size_eq_one_iff.mp hc⟩
    rwa [Char.ofNat_toNat] at hmeets
  · have hlong : 0x80 ≤ c.val := by
      rw [UInt32.le_iff_toNat_le]
      exact Nat.le_of_not_lt fun hlt => hc (utf8Size_eq_one_iff.mpr hlt)
    rw [hp b (le_of_mem_utf8EncodeChar hc hb), hq c hlong]

/-- **Parts of words** are told by their bytes. -/
theorem word_meets : Meets isWordByte Text.isWordPart :=
  .of_ascii true (by decide) (fun b hb => by simp [isWordByte, hb])
    (fun c hc => by simp [Text.isWordPart, Text.isWordStart, hc])

/-- So are parts of names, which may have separators in them. -/
theorem name_meets : Meets isNameByte Text.isNamePart :=
  .of_ascii true (by decide) (fun b hb => by simp [isNameByte, isWordByte, hb])
    (fun c hc => by simp [Text.isNamePart, Text.isWordPart, Text.isWordStart, hc])

/-- So is space, none of which is beyond ASCII. -/
theorem space_meets : Meets isSpaceByte Text.isSpace := by
  refine .of_ascii false (by decide) (fun b hb => ?_) (fun c hc => ?_)
  · rw [Bool.eq_false_iff]
    intro hspace
    simp only [isSpaceByte, Bool.or_eq_true, beq_iff_eq] at hspace
    rcases hspace with (((rfl | rfl) | rfl) | rfl) | rfl <;> exact absurd hb (by decide)
  · rw [Bool.eq_false_iff]
    intro hspace
    simp only [Text.isSpace, Bool.or_eq_true, beq_iff_eq] at hspace
    rcases hspace with (((rfl | rfl) | rfl) | rfl) | rfl <;> exact absurd hc (by decide)

/-! ## Section 3: Scans by bytes and by characters -/

/-- The bytes of what precedes a position, backwards. -/
def backwards (back : Text) : Bytes := back.flatMap fun c => (String.utf8EncodeChar c).reverse

/-- The bytes of a text, backwards. -/
theorem backwards_reverse (front : Text) :
    backwards front.reverse = (Text.encode front).reverse := by
  rw [backwards, Text.encode_eq_flatMap, List.reverse_flatMap]
  rfl

theorem utf8EncodeChar_ne_nil (c : Char) : String.utf8EncodeChar c ≠ [] := by
  intro hnil
  have hlength := String.length_utf8EncodeChar c
  rw [hnil] at hlength
  exact absurd hlength.symm (Nat.ne_of_gt c.utf8Size_pos)

/-- Backwards, it is some byte of the last character that comes first. -/
theorem exists_backwards_cons (c : Char) (back : Text) :
    ∃ b ∈ String.utf8EncodeChar c, ∃ rest, backwards (c :: back) = b :: rest := by
  obtain ⟨b, rest, hbytes⟩ :=
    List.exists_cons_of_ne_nil (List.reverse_ne_nil_iff.mpr (utf8EncodeChar_ne_nil c))
  refine ⟨b, List.mem_reverse.mp (hbytes ▸ List.mem_cons_self), rest ++ backwards back, ?_⟩
  rw [backwards, List.flatMap_cons, hbytes]
  rfl

theorem backwards_cons_ascii {c : Char} (hc : c.utf8Size = 1) (back : Text) :
    backwards (c :: back) = c.toUInt8 :: backwards back := by
  rw [backwards, List.flatMap_cons, String.utf8EncodeChar_eq_singleton hc]
  rfl

@[simp] theorem length_backwards (back : Text) : (backwards back).length = Text.size back := by
  have hlength := congrArg List.length (backwards_reverse back.reverse)
  rwa [List.reverse_reverse, List.length_reverse, Text.length_encode, Text.size_reverse] at hlength

/-- A run of characters and its bytes: it ends at the same place. -/
theorem span_flatMap {p : UInt8 → Bool} {q : Char → Bool} {bytes : Char → Bytes}
    (h : ∀ c, ∀ b ∈ bytes c, p b = q c) (hne : ∀ c, bytes c ≠ []) (cs : Text) :
    (cs.flatMap bytes).takeWhile p = (cs.takeWhile q).flatMap bytes ∧
      (cs.flatMap bytes).dropWhile p = (cs.dropWhile q).flatMap bytes := by
  induction cs with
  | nil => exact ⟨rfl, rfl⟩
  | cons c cs ih =>
    rw [List.flatMap_cons]
    cases hc : q c with
    | true =>
      have hall : ∀ b ∈ bytes c, p b = true := fun b hb => (h c b hb).trans hc
      rw [List.takeWhile_append_of_pos hall, List.dropWhile_append_of_pos hall, ih.1, ih.2,
        List.takeWhile_cons_of_pos hc, List.dropWhile_cons_of_pos hc, List.flatMap_cons]
      exact ⟨rfl, rfl⟩
    | false =>
      -- the first byte of the character ends the run
      obtain ⟨b, rest, hbytes⟩ := List.exists_cons_of_ne_nil (hne c)
      have hb : ¬ p b = true := by
        rw [h c b (hbytes ▸ List.mem_cons_self), hc]
        exact Bool.false_ne_true
      have hc' : ¬ q c = true := Bool.eq_false_iff.mp hc
      rw [List.takeWhile_cons_of_neg hc', List.dropWhile_cons_of_neg hc', hbytes, List.cons_append,
        List.takeWhile_cons_of_neg hb, List.dropWhile_cons_of_neg hb, List.flatMap_cons, hbytes]
      exact ⟨rfl, rfl⟩

section

variable {p : UInt8 → Bool} {q : Char → Bool}

/-- A scan over a class leaves the same part before the cursor, -/
theorem Meets.dropWhile_backwards (h : Meets p q) (back : Text) :
    (backwards back).dropWhile p = backwards (back.dropWhile q) :=
  (span_flatMap (fun c b hb => h c b (List.mem_reverse.mp hb))
    (fun c => List.reverse_ne_nil_iff.mpr (utf8EncodeChar_ne_nil c)) back).2

theorem Meets.head?_backwards (h : Meets p q) (back : Text) :
    (backwards back).head?.any p = back.head?.any q := by
  cases back with
  | nil => rfl
  | cons c back =>
    obtain ⟨b, hb, rest, hbytes⟩ := exists_backwards_cons c back
    rw [hbytes]
    exact h c b hb

/-- and takes the same part behind it. -/
theorem Meets.takeWhile_encode (h : Meets p q) (ahead : Text) :
    (Text.encode ahead).takeWhile p = Text.encode (ahead.takeWhile q) := by
  rw [Text.encode_eq_flatMap, Text.encode_eq_flatMap]
  exact (span_flatMap h utf8EncodeChar_ne_nil ahead).1

end

theorem skipSpaces_backwards (back : Text) :
    skipSpaces (backwards back) = backwards (Receiver.skipSpaces back) :=
  space_meets.dropWhile_backwards back

theorem toNat_toUInt8 {c : Char} (hc : c.utf8Size = 1) : c.toUInt8.toNat = c.toNat := by
  have hlt := utf8Size_eq_one_iff.mp hc
  exact Nat.mod_eq_of_lt (Nat.lt_trans hlt (by decide))

/-- A byte is that of a mark only if its character is the mark. -/
theorem toUInt8_inj {c mark : Char} (hc : c.utf8Size = 1) (hmark : mark.utf8Size = 1) :
    c.toUInt8 = mark.toUInt8 ↔ c = mark := by
  constructor
  · intro h
    have hnat := congrArg UInt8.toNat h
    rw [toNat_toUInt8 hc, toNat_toUInt8 hmark] at hnat
    exact Char.ext (UInt32.toNat_inj.mp hnat)
  · rintro rfl
    rfl

/-- A byte beyond ASCII is that of no mark. -/
theorem ne_toUInt8 {mark : Char} (hmark : mark.utf8Size = 1) {b : UInt8} (hb : 0x80 ≤ b) :
    b ≠ mark.toUInt8 := by
  rintro rfl
  have hle := UInt8.le_iff_toNat_le.mp hb
  rw [toNat_toUInt8 hmark] at hle
  exact absurd (utf8Size_eq_one_iff.mp hmark) (Nat.not_lt_of_le hle)

/-- **Marks of ASCII** are found by their bytes. -/
theorem over?_backwards (marks : Text) (hmarks : marks.all (·.utf8Size == 1) = true) (back : Text) :
    over? marks (backwards back) = (Text.dropLeading? back marks).map backwards := by
  induction marks generalizing back with
  | nil => cases back <;> rfl
  | cons mark marks ih =>
    rw [List.all_cons, Bool.and_eq_true, beq_iff_eq] at hmarks
    obtain ⟨hmark, hmarks⟩ := hmarks
    cases back with
    | nil => rfl
    | cons c back =>
      rw [Text.dropLeading?]
      by_cases hc : c.utf8Size = 1
      · rw [backwards_cons_ascii hc, over?]
        simp only [toUInt8_inj hc hmark]
        split
        next => exact ih hmarks back
        next => rfl
      -- a longer character is no mark, and none of its bytes is one
      · have hne : c ≠ mark := fun h => hc (h ▸ hmark)
        obtain ⟨b, hb, rest, hbytes⟩ := exists_backwards_cons c back
        rw [if_neg hne, hbytes, over?,
          if_neg (ne_toUInt8 hmark (le_of_mem_utf8EncodeChar hc hb))]
        rfl

/-- Either arrow is found by its bytes. -/
theorem operator?_backwards (back : Text) :
    operator? (backwards back) = (Receiver.operator? back).map (Prod.map backwards id) := by
  rw [operator?, over?_backwards _ (by decide)]
  cases h : Text.dropLeading? back ['>', '-'] with
  | none =>
    unfold Receiver.operator?
    split
    next => simp [Text.dropLeading?] at h
    next => simp [Text.dropLeading?] at h
    next => rfl
  | some rest =>
    obtain rfl := Text.dropLeading?_eq_some_iff.mp h
    rw [Option.map_some, Option.bind_eq_bind, Option.bind_some, over?_backwards _ (by decide)]
    -- the arrow may have a question mark before it
    cases h' : Text.dropLeading? rest ['?'] with
    | none =>
      have hplain : Receiver.operator? (['>', '-'] ++ rest) = some (rest, false) := by
        refine Receiver.operator?.eq_2 rest fun behind hrest => ?_
        simp [hrest, Text.dropLeading?] at h'
      rw [hplain]
      rfl
    | some behind =>
      obtain rfl := Text.dropLeading?_eq_some_iff.mp h'
      rfl

theorem dollar_backwards (back : Text) :
    dollar (backwards back) = backwards (Receiver.dollar back) := by
  rw [dollar, over?_backwards _ (by decide)]
  cases h : Text.dropLeading? back ['$'] with
  | none =>
    unfold Receiver.dollar
    split
    next => simp [Text.dropLeading?] at h
    next => rfl
  | some rest =>
    obtain rfl := Text.dropLeading?_eq_some_iff.mp h
    rfl

/-- Bytes beyond ASCII are no parentheses. -/
theorem leaveGroups_append (depth : Nat) {bytes : Bytes} (h : ∀ b ∈ bytes, 0x80 ≤ b)
    (rest : Bytes) :
    leaveGroups depth (bytes ++ rest) = leaveGroups depth rest := by
  induction bytes with
  | nil => rfl
  | cons b bytes ih =>
    have hb := h b List.mem_cons_self
    rw [List.cons_append, leaveGroups, if_neg (ne_toUInt8 rfl hb), if_neg (ne_toUInt8 rfl hb)]
    exact ih fun b hb => h b (List.mem_cons_of_mem _ hb)

/-- **Groups in parentheses** are left at the same places. -/
theorem leaveGroups_backwards (depth : Nat) (back : Text) :
    leaveGroups depth (backwards back) = (Receiver.leaveGroups depth back).map backwards := by
  induction back generalizing depth with
  | nil => rfl
  | cons c back ih =>
    by_cases hclose : c = ')'
    · rw [hclose, backwards_cons_ascii rfl]
      exact ih (depth + 1)
    by_cases hopen : c = '('
    · rw [hopen, backwards_cons_ascii rfl, leaveGroups, Receiver.leaveGroups,
        if_neg (by decide), if_pos rfl]
      split
      next => rfl
      next => exact ih (depth - 1)
    -- all other characters are passed over, byte by byte
    rw [Receiver.leaveGroups.eq_4 depth c back hclose hopen, ← ih]
    by_cases hc : c.utf8Size = 1
    · rw [backwards_cons_ascii hc, leaveGroups, if_neg (mt (toUInt8_inj hc rfl).mp hclose),
        if_neg (mt (toUInt8_inj hc rfl).mp hopen)]
    · exact leaveGroups_append depth
        (fun b hb => le_of_mem_utf8EncodeChar hc (List.mem_reverse.mp hb)) _

/-- What is left over is compared by bytes as it is by characters. -/
theorem size_lt_size_iff {start back : Text} (h : start <:+ back) :
    Text.size start < Text.size back ↔ start.length < back.length := by
  obtain ⟨x, rfl⟩ := h
  rw [Text.size_append, List.length_append]
  cases x with
  | nil => simp
  | cons c x =>
    have hpos := c.utf8Size_pos
    simp only [Text.size_cons, List.length_cons]
    omega

theorem size_le_size {start back : Text} (h : start <:+ back) :
    Text.size start ≤ Text.size back := by
  obtain ⟨x, rfl⟩ := h
  rw [Text.size_append]
  exact Nat.le_add_left _ _

/-- **A link** of a chain is left at the same place, be it a word or a call. -/
theorem link?_backwards (back : Text) :
    link? (backwards back) = (Receiver.link? back).map backwards := by
  rw [link?, over?_backwards _ (by decide)]
  cases h : Text.dropLeading? back [')'] with
  -- a call, whose name stands before its parentheses
  | some rest =>
    obtain rfl := Text.dropLeading?_eq_some_iff.mp h
    rw [List.singleton_append, Receiver.link?, Option.map_some]
    simp only [leaveGroups_backwards]
    cases Receiver.leaveGroups 1 rest with
    | none => rfl
    | some opened =>
      simp only [Option.map_some, Option.bind_eq_bind, Option.bind_some, Option.pure_def,
        name_meets.dropWhile_backwards, length_backwards, dollar_backwards,
        size_lt_size_iff (List.dropWhile_suffix (l := opened) Text.isNamePart), apply_ite backwards]
  | none =>
    have hnot : ∀ rest, back = ')' :: rest → False := by
      rintro rest rfl
      simp [Text.dropLeading?] at h
    have hsuffix := (suffix_dollar _).trans (List.dropWhile_suffix (l := back) Text.isWordPart)
    rw [Receiver.link?.eq_2 back hnot]
    simp only [Option.map_none, word_meets.dropWhile_backwards, length_backwards, dollar_backwards,
      size_lt_size_iff hsuffix]
    split <;> rfl

/-- The word `new` is found by its bytes, unless it is the end of a longer word. -/
theorem newBefore?_backwards {before start : Text} (h : before <:+ start) :
    newBefore? (backwards before) (backwards start) =
      (Receiver.newBefore? before start).map backwards := by
  rw [newBefore?, over?_backwards _ (by decide)]
  cases hnew : Text.dropLeading? before ['w', 'e', 'n'] with
  | none =>
    unfold Receiver.newBefore?
    split
    next => simp [Text.dropLeading?] at hnew
    next => rfl
  | some rest =>
    obtain rfl := Text.dropLeading?_eq_some_iff.mp hnew
    simp only [Option.map_some, Option.bind_eq_bind, Option.bind_some, length_backwards,
      word_meets.head?_backwards, size_lt_size_iff h]
    rw [List.cons_append, List.cons_append, List.singleton_append, Receiver.newBefore?]
    split <;> rfl

/-- What goes on behind an operator is found by its bytes. -/
theorem continued?_backwards (before : Text) :
    continued? (backwards before) = (Receiver.continued? before).map backwards := by
  unfold continued? Receiver.continued?
  rw [operator?_backwards, over?_backwards _ (by decide)]
  cases Receiver.operator? before with
  | some found => exact congrArg some (skipSpaces_backwards found.1)
  | none =>
    cases h : Text.dropLeading? before [':', ':'] with
    | none =>
      dsimp only [Option.map_none]
      split
      next => simp [Text.dropLeading?] at h
      next => rfl
    | some rest =>
      obtain rfl := Text.dropLeading?_eq_some_iff.mp h
      exact congrArg some (skipSpaces_backwards rest)

theorem length_le_size (back : Text) : back.length ≤ Text.size back := by
  induction back with
  | nil => exact Nat.le_refl 0
  | cons c back ih =>
    have hpos := c.utf8Size_pos
    rw [Text.size_cons, List.length_cons]
    omega

/-- Link by link, a chain is left at the same places. The induction is on the number of links. -/
theorem chain?_backwards (fuel : Nat) (back : Text) :
    chain? fuel (backwards back) = (Receiver.chain? fuel back).map backwards := by
  induction fuel generalizing back with
  | zero => rfl
  | succ fuel ih =>
    rw [chain?, Receiver.chain?, link?_backwards]
    cases Receiver.link? back with
    | none => rfl
    | some start =>
      simp only [Option.map_some, Option.bind_eq_bind, Option.bind_some, skipSpaces_backwards,
        continued?_backwards]
      cases Receiver.continued? (Receiver.skipSpaces start) with
      | none =>
        simp only [Option.map_none, newBefore?_backwards (suffix_skipSpaces start)]
        cases Receiver.newBefore? (Receiver.skipSpaces start) start <;> rfl
      | some rest => exact ih rest

/-- **Where a chain begins** is found by bytes as it is by characters. -/
theorem chainStart?_backwards (back : Text) :
    chainStart? (backwards back) = (Receiver.chainStart? back).map backwards := by
  -- there are more bytes than characters, and so at least as many rounds
  have hle := length_le_size back
  rw [chainStart?, chain?_backwards, length_backwards, Receiver.chainStart?,
    chain?_of_lt (Nat.lt_succ_of_le hle) (Nat.lt_succ_self _)]

/-! ## Section 4: Boundaries -/

/-- The first byte of a character tells that one begins, and the others that it goes on. -/
theorem utf8EncodeChar_spec (c : Char) : ∃ first rest, String.utf8EncodeChar c = first :: rest ∧
    isContinuation first = false ∧ ∀ b ∈ rest, isContinuation b = true := by
  have hfirst : ∀ n < 256, n < 128 ∨ 192 ≤ n → isContinuation (UInt8.ofNat n) = false :=
    by decide +kernel
  have hrest : ∀ n < 64, isContinuation (UInt8.ofNat (n + 128)) = true := by decide +kernel
  have hbits : ∀ n, isContinuation (UInt8.ofNat (n % 64 + 128)) = true := fun n =>
    hrest _ (Nat.mod_lt n (by decide))
  simp only [String.utf8EncodeChar]
  split
  next => exact ⟨_, _, rfl, hfirst _ (by omega) (by omega), List.forall_mem_nil _⟩
  -- by the number of bytes, of which all but the first carry six bits
  split
  on_goal 2 => split
  all_goals
    refine ⟨_, _, rfl, hfirst _ (by omega) (by omega), ?_⟩
    simp only [List.forall_mem_cons, hbits, true_and]
    exact List.forall_mem_nil _

/-- **Boundaries** are the places of a text at which no character goes on. -/
theorem isBoundary_iff_bytes {text : Text} {place : Nat} : Text.isBoundary text place = true ↔
    place ≤ Text.size text ∧ (Text.encode text)[place]?.any isContinuation = false := by
  rw [Text.isBoundary_iff]
  constructor
  · rintro ⟨front, ⟨behind, rfl⟩, rfl⟩
    refine ⟨by rw [Text.size_append]; exact Nat.le_add_right _ _, ?_⟩
    rw [Text.encode_append, List.getElem?_append_right (by rw [Text.length_encode]),
      Text.length_encode, Nat.sub_self]
    cases behind with
    | nil =>
      rw [Text.encode_nil]
      rfl
    | cons c behind =>
      obtain ⟨first, rest, hbytes, hfirst, -⟩ := utf8EncodeChar_spec c
      rw [Text.encode_eq_flatMap, List.flatMap_cons, hbytes]
      exact hfirst
  · rintro ⟨hle, hplace⟩
    induction text generalizing place with
    | nil => exact ⟨[], List.nil_prefix, (Nat.le_zero.mp hle).symm⟩
    | cons c cs ih =>
      obtain ⟨first, rest, hbytes, -, hrest⟩ := utf8EncodeChar_spec c
      have hlength := String.length_utf8EncodeChar c
      rw [Text.encode_eq_flatMap, List.flatMap_cons, ← Text.encode_eq_flatMap] at hplace
      rw [Text.size_cons] at hle
      rcases Nat.lt_or_ge place c.utf8Size with hlt | hge
      · -- within the character there is no place but its beginning
        rcases Nat.eq_zero_or_pos place with rfl | hpos
        · exact ⟨[], List.nil_prefix, rfl⟩
        · obtain ⟨before, rfl⟩ := Nat.exists_eq_succ_of_ne_zero (Nat.ne_of_gt hpos)
          have hbefore : before < rest.length := by
            rw [hbytes, List.length_cons] at hlength
            omega
          rw [hbytes, List.cons_append, List.getElem?_cons_succ, List.getElem?_append_left hbefore,
            List.getElem?_eq_getElem hbefore] at hplace
          exact absurd (hrest _ (List.getElem_mem hbefore)) (Bool.eq_false_iff.mp hplace)
      · rw [List.getElem?_append_right (by omega), hlength] at hplace
        have hbehind : place - c.utf8Size ≤ Text.size cs := by omega
        obtain ⟨front, hfront, hsize⟩ := ih hbehind hplace
        exact ⟨c :: front, List.cons_prefix_cons.mpr ⟨rfl, hfront⟩, by rw [Text.size_cons]; omega⟩

/-- What going back leaves out are places at which a character goes on. -/
theorem clampFrom_spec (bytes : Bytes) (n : Nat) :
    clampFrom bytes n ≤ n ∧
      (clampFrom bytes n = 0 ∨ bytes[clampFrom bytes n]?.any isContinuation = false) ∧
      ∀ place, clampFrom bytes n < place → place ≤ n → bytes[place]?.any isContinuation = true := by
  induction n with
  | zero => exact ⟨Nat.le_refl 0, .inl rfl, fun place hlt hle => absurd hle (Nat.not_le_of_lt hlt)⟩
  | succ n ih =>
    obtain ⟨hle, hbegins, hafter⟩ := ih
    rw [clampFrom]
    split
    next hgoes =>
      refine ⟨Nat.le_succ_of_le hle, hbegins, fun place hlt hplace => ?_⟩
      rcases Nat.le_succ_iff.mp hplace with hplace | rfl
      · exact hafter place hlt hplace
      · exact hgoes
    next hstops =>
      exact ⟨Nat.le_refl _, .inr (Bool.eq_false_iff.mpr hstops),
        fun place hlt hplace => absurd hplace (Nat.not_le_of_lt hlt)⟩

/-- **Clamping** gives the last boundary up to an offset. -/
theorem clamp_encode (text : Text) (offset : Nat) :
    clamp (Text.encode text) offset = Text.floor text offset := by
  obtain ⟨hle, hbegins, hafter⟩ :=
    clampFrom_spec (Text.encode text) (min offset (Text.encode text).length)
  rw [Text.length_encode] at hle hbegins hafter
  obtain ⟨hfloor, hbefore, hlast⟩ := Text.isFloor_floor text offset
  obtain ⟨hsize, hstarts⟩ := isBoundary_iff_bytes.mp hfloor
  rw [clamp, Text.length_encode]
  apply Nat.le_antisymm
  -- what clamping gives is a boundary, and between it and the offset there is none
  · refine hlast _ (by omega) (isBoundary_iff_bytes.mpr ⟨by omega, ?_⟩)
    rcases hbegins with hzero | hbegins
    · rw [hzero]
      exact (isBoundary_iff_bytes.mp (Text.isBoundary_size [] text)).2
    · exact hbegins
  · by_contra hlt
    have hgoes := hafter (Text.floor text offset) (by omega) (by omega)
    rw [hstarts] at hgoes
    cases hgoes

/-! ## Section 5: Sites by bytes and by characters -/

/-- The cursor is put between the same bytes as between characters. -/
theorem around_eq {text back ahead : Text} {offset : Nat}
    (h : Receiver.around text offset = (back, ahead)) :
    around (Text.encode text) offset = (backwards back, Text.encode ahead) ∧
      text = back.reverse ++ ahead := by
  obtain ⟨front, behind, rfl, hsize, haround⟩ := exists_around text offset
  obtain ⟨rfl, rfl⟩ := Prod.mk.inj (haround.symm.trans h)
  rw [around, clamp_encode, ← hsize, Text.encode_append, List.take_left' (Text.length_encode front),
    List.drop_left' (Text.length_encode front), backwards_reverse, List.reverse_reverse]
  exact ⟨rfl, rfl⟩

/-- The text can be cut where a word begins before the cursor and where it ends behind it. -/
theorem slice?_member {text back ahead : Text} (htext : text = back.reverse ++ ahead)
    {rest word more behind : Text} (hback : back = word ++ rest) (hahead : ahead = more ++ behind) :
    Text.slice? text (Text.size rest) (Text.size back + Text.size more) =
      some (word.reverse ++ more) := by
  subst hback hahead
  refine Text.slice?_eq_some_iff.mpr ⟨rest.reverse, behind, ?_, Text.size_reverse rest, ?_⟩
  · rw [htext, List.reverse_append, List.append_assoc, List.append_assoc]
  · rw [Text.size_append, Text.size_append, Text.size_reverse]
    omega

/-- It can also be cut at the cursor. -/
theorem slice?_typed {text back ahead : Text} (htext : text = back.reverse ++ ahead)
    {rest word : Text} (hback : back = word ++ rest) :
    Text.slice? text (Text.size rest) (Text.size back) = some word.reverse := by
  have hcut := slice?_member htext hback (List.nil_append ahead).symm
  rwa [List.append_nil] at hcut

/-- **A fetch that is found by its bytes** is the one that is found by characters, and the text can
be cut where its ranges begin and end. -/
theorem read?_fetchRanges? (text : Text) (offset : Nat) :
    (fetchRanges? (Text.encode text) offset).map (FetchRanges.read? text) =
      (fetchSite? text offset).map some := by
  obtain ⟨back, ahead, haround⟩ : ∃ back ahead, Receiver.around text offset =
    (back, ahead) := ⟨_, _, rfl⟩
  obtain ⟨hbytes, htext⟩ := around_eq haround
  rw [fetchRanges?, fetchSite?, hbytes, haround]
  unfold guard
  simp only [word_meets.dropWhile_backwards, skipSpaces_backwards, operator?_backwards]
  cases Receiver.operator? (Receiver.skipSpaces (back.dropWhile Text.isWordPart)) with
  | none => rfl
  | some found =>
    obtain ⟨beforeOperator, nullsafe⟩ := found
    simp only [Option.map_some, Option.bind_eq_bind, Option.bind_some, Prod.map_apply, id_eq,
      skipSpaces_backwards, chainStart?_backwards]
    cases hstart : Receiver.chainStart? (Receiver.skipSpaces beforeOperator) with
    | none => rfl
    | some start =>
      have hsuffix := suffix_chainStart? hstart
      -- an empty receiver is told by its bytes as by its characters
      have hguard : Text.size start ≠ Text.size (Receiver.skipSpaces beforeOperator) ↔
          start.length < (Receiver.skipSpaces beforeOperator).length := by
        rw [← size_lt_size_iff hsuffix]
        exact (size_le_size hsuffix).lt_iff_ne.symm
      simp only [Option.map_some, Option.bind_some, length_backwards, word_meets.takeWhile_encode,
        Text.length_encode, hguard]
      by_cases hlength : start.length < (Receiver.skipSpaces beforeOperator).length
      · have hback := (List.takeWhile_append_dropWhile (p := Text.isWordPart) (l := back)).symm
        have hahead := (List.takeWhile_append_dropWhile (p := Text.isWordPart) (l := ahead)).symm
        simp only [if_pos hlength, Option.pure_def, Option.bind_some, Option.map_some,
          FetchRanges.read?, slice?_typed htext hback, slice?_member htext hback hahead]
        rfl
      · simp only [if_neg hlength]
        rfl

/-- **A variable that is found by its bytes** is the one that is found by characters, and the text
can be cut where it begins. -/
theorem read?_variableRanges? (text : Text) (offset : Nat) :
    (variableRanges? (Text.encode text) offset).map (VariableRanges.read? text) =
      (variableSite? text offset).map some := by
  obtain ⟨back, ahead, haround⟩ : ∃ back ahead, Receiver.around text offset =
    (back, ahead) := ⟨_, _, rfl⟩
  obtain ⟨hbytes, htext⟩ := around_eq haround
  rw [variableRanges?, variableSite?, hbytes, haround]
  simp only [word_meets.dropWhile_backwards, word_meets.takeWhile_encode,
    over?_backwards ['$'] (by decide)]
  cases h : Text.dropLeading? (back.dropWhile Text.isWordPart) ['$'] with
  | none =>
    split
    next hdollar => simp [hdollar, Text.dropLeading?] at h
    next => rfl
  | some rest =>
    have hdollar : back.dropWhile Text.isWordPart = '$' :: rest :=
      Text.dropLeading?_eq_some_iff.mp h
    have hback : back = (back.takeWhile Text.isWordPart ++ ['$']) ++ rest := by
      rw [List.append_assoc, List.singleton_append, ← hdollar, List.takeWhile_append_dropWhile]
    simp only [hdollar, Option.map_some, Option.bind_eq_bind, Option.bind_some, Option.pure_def,
      length_backwards, Text.length_encode, VariableRanges.read?, slice?_typed htext hback]
    rw [List.reverse_append]
    rfl

end CodeInsight.Receiver.Bytewise

namespace CodeInsight.Resolution

open Receiver

/-- **Sites are well formed.** On every text and for every offset, one behind the end or within a
character included, scans come to an end, and scans over the bytes of the text find the same sites:
they begin at the last boundary up to the offset, and the text can be cut where they stop. The site
that is found, of a fetch or of a variable, keeps to the text, which can be cut at all of its
ranges. -/
theorem sites_are_well_formed (text : Text) (offset : Nat) :
    (∀ back, Scans back (chainStart? back)) ∧
      (∀ back, Bytewise.chainStart? (Bytewise.backwards back) =
        (chainStart? back).map Bytewise.backwards) ∧
      (Bytewise.fetchRanges? (Text.encode text) offset).map (Bytewise.FetchRanges.read? text) =
        (fetchSite? text offset).map some ∧
      (Bytewise.variableRanges? (Text.encode text) offset).map
          (Bytewise.VariableRanges.read? text) =
        (variableSite? text offset).map some ∧
      Text.IsFloor text offset (Bytewise.clamp (Text.encode text) offset) ∧
      Text.IsFloor text offset (Text.floor text offset) ∧
      (∀ site, fetchSite? text offset = some site → site.WellFormed text offset) ∧
      (∀ site, variableSite? text offset = some site → site.WellFormed text offset) ∧
      ∀ range ∈ (siteAt text offset).ranges,
        ∃ part, part ≠ [] ∧ Text.slice? text range.start range.stop = some part := by
  refine ⟨scans_chainStart?, Bytewise.chainStart?_backwards,
    Bytewise.read?_fetchRanges? text offset, Bytewise.read?_variableRanges? text offset, ?_,
    Text.isFloor_floor text offset, fun _ => wellFormed_of_fetchSite?, fun _ =>
    wellFormed_of_variableSite?, fun _ => exists_slice?_of_mem_ranges⟩
  rw [Bytewise.clamp_encode]
  exact Text.isFloor_floor text offset

/-- A fetch in which names have characters of two bytes. -/
def naiveText : Text := "$é ?->naïve;".toList

/-- The cursors lie within the two long characters, the one of the member and the one of the
variable. -/
theorem sites_within_characters_are_well_formed :
    (∃ site, fetchSite? naiveText 10 = some site ∧ site.receiver = ⟨0, 3⟩ ∧ site.tail = ⟨4, 13⟩ ∧
        site.typed = "na" ∧ site.member = "naïve" ∧ site.WellFormed naiveText 10) ∧
      ∃ site, variableSite? naiveText 2 = some site ∧ site.token = ⟨0, 3⟩ ∧ site.typed = "$" ∧
        site.WellFormed naiveText 2 := by
  have hfetch : fetchSite? naiveText 10 = some ⟨⟨0, 3⟩, true, "na", "naïve", ⟨4, 13⟩⟩ :=
    by decide +kernel
  have hvariable : variableSite? naiveText 2 = some ⟨"$", ⟨0, 3⟩⟩ := by decide +kernel
  obtain ⟨-, -, -, -, -, -, hfetched, -, -⟩ := sites_are_well_formed naiveText 10
  obtain ⟨-, -, -, -, -, -, -, hnamed, -⟩ := sites_are_well_formed naiveText 2
  exact ⟨⟨_, hfetch, rfl, rfl, rfl, rfl, hfetched _ hfetch⟩,
    ⟨_, hvariable, rfl, rfl, hnamed _ hvariable⟩⟩

end CodeInsight.Resolution
