import CodeInsight.Proofs.ReceiverScan
import CodeInsight.Proofs.TrimmedTexts
import Mathlib.Data.Option.Basic

/-!
# Static calls on qualified names

Reading a receiver forwards, the class of a static call is everything that may stand in a qualified
name. The scan that goes back from the operator takes a class name for a word instead, and a
separator ends it. So the receiver of a fetch behind `\App\Factory::create()` is
`Factory::create()`, whatever stands before it, and it is read as a call on another class.

## Main Results

- `Chain.ofText?_staticCall`: a static call is read with the whole of its class name
- `chainStart?_behind_separator`: the scan stops at the separator in front of the class's own name
- `static_receiver_loses_qualifier`: the receiver that is found, and what it is read as
-/

namespace CodeInsight.Receiver

variable {rest : Text} {name : QualifiedName}

/-! ## Section 1: Static calls read forwards -/

/-- A word is a name without a qualifier. -/
def Word.asName (w : Word) : QualifiedName :=
  ⟨w.chars, w.ne_nil, List.all_eq_true.mpr fun c hc => isNamePart_of_isWordPart (w.of_mem c hc)⟩

/-- A class name ends where the rest of the call begins. -/
theorem StaticCall.isNamePart_of_head? (call : StaticCall) :
    ∀ c ∈ call.text.head?, Text.isNamePart c = false := by
  intro c hc
  rcases call.before.head?_append hc with hspace | hc
  · exact isNamePart_of_isSpace hspace
  · obtain rfl : ':' = c := Option.some.inj hc
    decide

namespace Chain

theorem skip_blanks (b : Blanks) (h : ∀ c ∈ rest.head?, Text.isSpace c = false) :
    skip (b.chars ++ rest) = rest :=
  dropWhile_run b.of_mem h

theorem word?_run {isPart : Char → Bool} (r : Run isPart) (h : ∀ c ∈ rest.head?, isPart c = false) :
    word? isPart (r.chars ++ rest) = some (String.ofList r.chars, rest) := by
  rw [word?, takeWhile_run r.of_mem h, dropWhile_run r.of_mem h]
  exact if_neg r.ne_nil

section

variable (name) (call : StaticCall)

/-- No name begins with a parenthesis, a `$` or a blank. -/
theorem ne_of_head? {c d : Char} (h : (name.chars ++ rest).head? = some c)
    (hd : Text.isNamePart d = false) : c ≠ d := by
  rintro rfl
  rw [name.of_head? h] at hd
  cases hd

theorem group?_name (rest : Text) : group? (name.chars ++ rest) = none := by
  unfold group?
  split
  next heq => exact absurd rfl (ne_of_head? name (by rw [heq]; rfl) (by decide))
  next => rfl

theorem skip_name (rest : Text) : skip (name.chars ++ rest) = name.chars ++ rest := by
  cases hname : name.chars with
  | nil => exact absurd hname name.ne_nil
  | cons c cs =>
    have hspace : Text.isSpace c = false := by
      cases h : Text.isSpace c with
      | false => rfl
      | true =>
        have hpart := isNamePart_of_isSpace h
        rw [name.of_mem c (hname ▸ List.mem_cons_self)] at hpart
        cases hpart
    exact List.dropWhile_cons_of_neg (by simp [hspace])

theorem skip_staticCall :
    skip call.text = ':' :: ':' :: (call.after.chars ++ (call.method.chars ++ call.args.text)) := by
  apply skip_blanks call.before
  exact forall_head?_cons (by decide) _

/-- Behind the two colons stand the method and its arguments. -/
theorem word?_method :
    word? Text.isWordPart (skip (call.after.chars ++ (call.method.chars ++ call.args.text))) =
      some (String.ofList call.method.chars, call.args.text) := by
  have hmethod : Firm (call.method.chars ++ call.args.text) :=
    (firm_of_isWordPart call.method.ne_nil call.method.of_mem).append _
  rw [skip_blanks call.after hmethod.isSpace]
  apply word?_run
  exact forall_head?_cons (by decide) _

theorem base?_staticCall :
    base? (name.chars ++ call.text) =
      if (String.ofList name.chars).toLower = "new" then none
      else some (.staticCall (String.ofList name.chars) (String.ofList call.method.chars), []) := by
  have hgroup : group? (skip call.args.text) = some (call.args.chars, []) := by
    have h := group?_arguments call.args []
    rwa [List.append_nil] at h
  unfold base?
  split
  next heq => exact absurd rfl (ne_of_head? name (by rw [heq]; rfl) (by decide))
  next =>
    rw [word?_run name call.isNamePart_of_head?]
    simp only [Option.bind_eq_bind, Option.bind_some, skip_staticCall, word?_method, hgroup]
    rfl

theorem start?_staticCall (inner? : Text → Option Chain) :
    start? inner? (name.chars ++ call.text) =
      if (String.ofList name.chars).toLower = "new" then none
      else some
        (⟨.staticCall (String.ofList name.chars) (String.ofList call.method.chars), []⟩, []) := by
  rw [start?, group?_name]
  simp only [base?_staticCall]
  split
  next => rfl
  next => rfl

/-- **A static call is read with the whole of its class name**, unless that is the word `new`. -/
theorem ofText?_staticCall :
    ofText? (name.chars ++ call.text) =
      if (String.ofList name.chars).toLower = "new" then none
      else some ⟨.staticCall (String.ofList name.chars) (String.ofList call.method.chars), []⟩ := by
  rw [ofText?, read?, skip_name, start?_staticCall]
  by_cases hnew : (String.ofList name.chars).toLower = "new"
  · rw [if_pos hnew, if_pos hnew]
    rfl
  · -- nothing is left behind the call, so that no links follow it
    rw [if_neg hnew, if_neg hnew]
    rfl

end

end Chain

/-! ## Section 2: Static calls read backwards -/

variable (className : Word) (call : StaticCall)

/-- A separator ends the scan, and nothing in front of it matters. -/
theorem chainStart?_behind_separator (back : Text) :
    chainStart? ((className.chars ++ call.text).reverse ++ '\\' :: back) = some ('\\' :: back) := by
  have hlink : link? (className.chars.reverse ++ '\\' :: back) = some ('\\' :: back) := by
    apply link?_word
    exact forall_head?_cons ⟨by decide, by decide⟩ back
  -- a separator belongs neither to an operator nor to the word `new`, so both are ruled out by
  -- `rfl`
  exact (chainStart?_staticCall className call _).trans (chainStart?_ended hlink rfl)

/-- The call on the class alone does not begin with the qualified name. -/
theorem not_begins_qualified {qualifier : Text}
    (hname : name.chars = qualifier ++ '\\' :: className.chars) :
    ¬name.chars <+: className.chars ++ call.text := by
  rintro ⟨rest, hrest⟩
  -- the run of name characters that the call begins with is the class's own name
  have hrun : name.chars ++ rest.takeWhile Text.isNamePart = className.chars := by
    rw [← List.takeWhile_append_of_pos name.of_mem, hrest]
    exact takeWhile_run className.asName.of_mem call.isNamePart_of_head?
  have hlength := congrArg List.length hrun
  rw [hname, List.length_append, List.length_append, List.length_cons] at hlength
  omega

theorem toLower_qualified_ne_new (h : '\\' ∈ name.chars) :
    (String.ofList name.chars).toLower ≠ "new" := by
  intro hnew
  have hlower : name.chars.map Char.toLower = "new".toList := by
    rw [← hnew, Text.toList_toLower, String.toList_ofList]
  have hmem : Char.toLower '\\' ∈ "new".toList := hlower ▸ List.mem_map_of_mem h
  revert hmem
  decide

/-- **A fetch behind a static call on a qualified name.** Whatever stands before the name, the
receiver that is found begins behind its last separator. -/
theorem static_receiver_loses_qualifier {name : QualifiedName} {qualifier : Text}
    (hname : name.chars = qualifier ++ '\\' :: className.chars) (before : Text) (f : Fetch)
    {typed : Text}
    (htyped : ∀ c ∈ typed, Text.isWordPart c = true) (behind : Text) :
    ∃ site, fetchSite? (before ++ (name.chars ++ call.text) ++ f.text ++ typed ++ behind)
        (Text.size (before ++ (name.chars ++ call.text) ++ f.text ++ typed)) = some site ∧
      site.receiver = ⟨Text.size (before ++ qualifier ++ ['\\']),
        Text.size (before ++ (name.chars ++ call.text))⟩ ∧
      Text.slice (before ++ (name.chars ++ call.text) ++ f.text ++ typed ++ behind)
        site.receiver.start site.receiver.stop = className.chars ++ call.text ∧
      ¬name.chars <+: className.chars ++ call.text ∧
      Chain.ofText? (className.chars ++ call.text) =
        (if (String.ofList className.chars).toLower = "new" then none
        else some
          ⟨.staticCall (String.ofList className.chars) (String.ofList call.method.chars), []⟩) ∧
      Chain.ofText? (name.chars ++ call.text) =
        some ⟨.staticCall (String.ofList name.chars) (String.ofList call.method.chars), []⟩ := by
  have htext : before ++ (name.chars ++ call.text) =
      before ++ qualifier ++ ['\\'] ++ (className.chars ++ call.text) := by
    rw [hname]
    simp
  have hfirm : Firm (className.chars ++ call.text).reverse :=
    (Stem.staticCall className call).firm
  have hscan : chainStart?
        ((className.chars ++ call.text).reverse ++ (before ++ qualifier ++ ['\\']).reverse) =
      some (before ++ qualifier ++ ['\\']).reverse := by
    rw [List.reverse_concat]
    exact chainStart?_behind_separator className call _
  have hseparator : '\\' ∈ name.chars := by
    rw [hname]
    exact List.mem_append_right _ List.mem_cons_self
  have hwhole := Chain.ofText?_staticCall name call
  rw [if_neg (toLower_qualified_ne_new hseparator)] at hwhole
  rw [htext]
  exact ⟨_, fetchSite?_append hfirm hscan f htyped behind, rfl, slice_receiver _ _ f typed behind,
    not_begins_qualified className call hname, Chain.ofText?_staticCall className.asName
      call, hwhole⟩

/-- The rest of a call `::create()`. -/
def createCall : StaticCall := ⟨.none, .none, ⟨"create".toList, by decide, by decide⟩, .none⟩

def appFactory : QualifiedName := ⟨"\\App\\Factory".toList, by decide, by decide⟩

/-- With `fi` typed of the member's name. -/
theorem factory_receiver_loses_qualifier :
    appFactory.chars = "\\App".toList ++ '\\' :: factory.chars ∧
      (∀ c ∈ "fi".toList, Text.isWordPart c = true) ∧
      ∃ site, fetchSite?
          ("$a = 1;".toList ++ (appFactory.chars ++ createCall.text) ++ pendingFetch.text ++
            "fi".toList ++ [])
          (Text.size ("$a = 1;".toList ++ (appFactory.chars ++ createCall.text) ++
            pendingFetch.text ++ "fi".toList)) = some site ∧
        site.receiver = ⟨12, 29⟩ ∧ factory.chars ++ createCall.text = "Factory::create()".toList ∧
        Chain.ofText? (factory.chars ++ createCall.text) =
          some ⟨.staticCall "Factory" "create", []⟩ ∧
        Chain.ofText? (appFactory.chars ++ createCall.text) =
          some ⟨.staticCall "\\App\\Factory" "create", []⟩ := by
  have hname : appFactory.chars = "\\App".toList ++ '\\' :: factory.chars := by decide
  have htyped : ∀ c ∈ "fi".toList, Text.isWordPart c = true :=
    List.all_eq_true.mp (by decide +kernel)
  obtain ⟨site, hsite, hreceiver, -, -, hread, hwhole⟩ :=
    static_receiver_loses_qualifier factory createCall hname "$a = 1;".toList pendingFetch htyped []
  exact ⟨hname, htyped, site, hsite, hreceiver.trans (by decide +kernel), by decide +kernel,
    hread.trans (by decide +kernel), hwhole.trans (by decide +kernel)⟩

/-- Behind a statement, the receiver of `\App\Factory::create()->` neither begins with the class
name nor is read as a call on that class. -/
theorem qualified_factory_read_as_factory :
    ∃ site, fetchSite? "<?php\n$a = 1;\\App\\Factory::create()->".toList 37 = some site ∧
      Text.slice "<?php\n$a = 1;\\App\\Factory::create()->".toList site.receiver.start
        site.receiver.stop = "Factory::create()".toList ∧
      ¬"\\App\\Factory".toList <+: "Factory::create()".toList ∧
      Chain.ofText? "Factory::create()".toList = some ⟨.staticCall "Factory" "create", []⟩ := by
  refine ⟨⟨⟨18, 35⟩, false, "", "", ⟨35, 37⟩⟩, ?_, ?_, ?_, ?_⟩ <;> decide +kernel

end CodeInsight.Receiver
