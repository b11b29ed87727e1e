import ReplicaRing.Inputs
import ReplicaRing.Proofs.Results
import ReplicaRing.Proofs.Text.Words

/-!
# Reading weights

A line says nothing, gives a node a weight, or is refused. What it says is told by its characters
(`Weights.Gives`), not by the way it is cut into words; `addLine_eq_ok_iff` is the step that ties
the two. A run over many lines (`addLines_spec`) either takes all of them, and then the last line
for each node holds, or stops at the first that is refused and names its number.

Weights that can be read are weights that `validate` accepts, in either form: a line is checked when
it is taken, a document after it has been read. `ofLines_exact` puts this together.
-/

namespace ReplicaRing.Weights

/-! ### What a line says -/

/-- Without its comment and the blanks around it, nothing is left of the line. -/
def SaysNothing (line : List Char) : Prop :=
  Text.trim (Text.beforeComment line) = []

/-- Without its comment and the blanks around it, the line consists of two words with a gap between
them, a node and a number. -/
def Pairs (line : List Char) (id : NodeId) (number : List Char) : Prop :=
  ∃ gap, Text.trim (Text.beforeComment line) = id.toList ++ (gap ++ number) ∧
    Text.IsWord id.toList ∧ gap ≠ [] ∧ Text.IsGap gap ∧ Text.IsWord number

/-- The line gives a node a weight that is finite and greater than zero. -/
def Gives (line : List Char) (id : NodeId) (x : Float) : Prop :=
  ∃ number, Pairs line id number ∧ Decimal.read? number = some x ∧ x.isFinite = true ∧ 0.0 < x

/-- The line is one of those that the format allows. -/
def Proper (line : List Char) : Prop :=
  SaysNothing line ∨ ∃ id x, Gives line id x

theorem words_eq_nil_iff {line : List Char} :
    Text.words (Text.beforeComment line) = [] ↔ SaysNothing line :=
  Text.words_eq_nil_iff

theorem words_eq_pair_iff {line : List Char} {id : NodeId} {number : List Char} :
    Text.words (Text.beforeComment line) = [id.toList, number] ↔ Pairs line id number :=
  Text.words_eq_pair_iff

/-- A line gives one weight to one node only. -/
theorem Gives.unique {line : List Char} {id id' : NodeId} {x x' : Float} (h : Gives line id x)
    (h' : Gives line id' x') : id = id' ∧ x = x' := by
  obtain ⟨number, hpairs, hread, -⟩ := h
  obtain ⟨number', hpairs', hread', -⟩ := h'
  have hwords := (words_eq_pair_iff.2 hpairs).symm.trans (words_eq_pair_iff.2 hpairs')
  simp only [List.cons.injEq, and_true, String.toList_inj] at hwords
  obtain ⟨rfl, rfl⟩ := hwords
  exact ⟨rfl, Option.some.inj (hread.symm.trans hread')⟩

theorem Gives.not_saysNothing {line : List Char} {id : NodeId} {x : Float} (h : Gives line id x) :
    ¬ SaysNothing line := by
  obtain ⟨number, hpairs, -⟩ := h
  rw [← words_eq_nil_iff, words_eq_pair_iff.2 hpairs]
  exact List.cons_ne_nil _ _

/-! ### One line -/

theorem isPositive_eq_true_iff {x : Float} :
    Binary64.isPositive x = true ↔ x.isFinite = true ∧ 0.0 < x := by
  simp [Binary64.isPositive]

theorem check_eq_ok_iff {name : String} {x : Float} :
    check name x = .ok () ↔ Binary64.isPositive x = true := by
  unfold check
  split <;> simp_all

theorem set_eq_ok_iff {w v : Weights} {id : NodeId} {x : Float} :
    w.set id x = .ok v ↔ Binary64.isPositive x = true ∧ v = ⟨w.default, w.own.insert id x⟩ := by
  unfold set
  rw [map_eq_ok]
  constructor
  · rintro ⟨⟨⟩, hcheck, rfl⟩
    exact ⟨check_eq_ok_iff.1 hcheck, rfl⟩
  · rintro ⟨hx, rfl⟩
    exact ⟨(), check_eq_ok_iff.2 hx, rfl⟩

theorem readLine_eq_none_iff {line : List Char} : readLine line = .ok none ↔ SaysNothing line := by
  rw [← words_eq_nil_iff]
  unfold readLine
  split
  · simp_all
  · split <;> simp_all
  · simp_all

theorem readLine_eq_some_iff {line : List Char} {id : NodeId} {x : Float} :
    readLine line = .ok (some (id, x)) ↔
      ∃ number, Pairs line id number ∧ Decimal.read? number = some x := by
  simp only [← words_eq_pair_iff]
  unfold readLine
  split
  · simp_all
  · rename_i word number hwords
    rw [hwords]
    have hid : String.ofList word = id ↔ word = id.toList := by
      rw [← String.toList_inj, String.toList_ofList]
    split <;> simp_all
  · simp_all

/-- A line that is taken says nothing and changes nothing, or it gives a node its weight. -/
theorem addLine_eq_ok_iff {w v : Weights} {line : List Char} :
    w.addLine line = .ok v ↔ SaysNothing line ∧ v = w ∨
      ∃ id x, Gives line id x ∧ v = ⟨w.default, w.own.insert id x⟩ := by
  constructor
  · intro h
    unfold addLine at h
    split at h
    · cases h
    · rename_i hread
      exact Or.inl ⟨readLine_eq_none_iff.1 hread, (Except.ok.inj h).symm⟩
    · rename_i id x hread
      obtain ⟨number, hpairs, hnumber⟩ := readLine_eq_some_iff.1 hread
      obtain ⟨hpositive, rfl⟩ := set_eq_ok_iff.1 (mapError_eq_ok.1 h)
      exact Or.inr ⟨id, x, ⟨number, hpairs, hnumber, isPositive_eq_true_iff.1 hpositive⟩, rfl⟩
  · rintro (⟨hnothing, rfl⟩ | ⟨id, x, ⟨number, hpairs, hnumber, hpositive⟩, rfl⟩)
    · rw [addLine, readLine_eq_none_iff.2 hnothing]
    · rw [addLine, readLine_eq_some_iff.2 ⟨number, hpairs, hnumber⟩]
      exact mapError_eq_ok.2 (set_eq_ok_iff.2 ⟨isPositive_eq_true_iff.2 hpositive, rfl⟩)

theorem exists_addLine_iff {w : Weights} {line : List Char} :
    (∃ v, w.addLine line = .ok v) ↔ Proper line := by
  simp only [addLine_eq_ok_iff]
  constructor
  · rintro ⟨v, ⟨hnothing, -⟩ | ⟨id, x, hgives, -⟩⟩
    · exact Or.inl hnothing
    · exact Or.inr ⟨id, x, hgives⟩
  · rintro (hnothing | ⟨id, x, hgives⟩)
    · exact ⟨w, Or.inl ⟨hnothing, rfl⟩⟩
    · exact ⟨_, Or.inr ⟨id, x, hgives, rfl⟩⟩

/-! ### Many lines -/

/-- None of the lines gives the node a weight. -/
def Unlisted (lines : List (List Char)) (id : NodeId) : Prop :=
  ∀ line ∈ lines, ∀ x, ¬ Gives line id x

/-- The last line that gives the node a weight gives it this one. -/
def LastGives (lines : List (List Char)) (id : NodeId) (x : Float) : Prop :=
  ∃ before line after, lines = before ++ line :: after ∧ Gives line id x ∧ Unlisted after id

variable {line : List Char} {rest lines : List (List Char)} {id : NodeId} {x : Float}

theorem unlisted_cons : Unlisted (line :: rest) id ↔ (∀ x, ¬ Gives line id x) ∧ Unlisted rest id :=
  List.forall_mem_cons

theorem lastGives_cons : LastGives (line :: rest) id x ↔
    LastGives rest id x ∨ Gives line id x ∧ Unlisted rest id := by
  constructor
  · rintro ⟨before, line', after, hlines, hgives, hafter⟩
    cases before with
    | nil =>
      obtain ⟨rfl, rfl⟩ := List.cons.inj hlines
      exact Or.inr ⟨hgives, hafter⟩
    | cons _ before =>
      exact Or.inl ⟨before, line', after, (List.cons.inj hlines).2, hgives, hafter⟩
  · rintro (⟨before, line', after, rfl, hgives, hafter⟩ | ⟨hgives, hrest⟩)
    · exact ⟨line :: before, line', after, rfl, hgives, hafter⟩
    · exact ⟨[], line, rest, rfl, hgives, hrest⟩

/-- Every node is listed on a last line, or on none. -/
theorem exists_lastGives_or_unlisted (lines : List (List Char)) (id : NodeId) :
    (∃ x, LastGives lines id x) ∨ Unlisted lines id := by
  induction lines with
  | nil => exact Or.inr fun _ h => absurd h List.not_mem_nil
  | cons line rest ih =>
    rcases ih with ⟨x, hlast⟩ | hrest
    · exact Or.inl ⟨x, lastGives_cons.2 (Or.inl hlast)⟩
    · by_cases hline : ∃ x, Gives line id x
      · obtain ⟨x, hgives⟩ := hline
        exact Or.inl ⟨x, lastGives_cons.2 (Or.inr ⟨hgives, hrest⟩)⟩
      · exact Or.inr (unlisted_cons.2 ⟨not_exists.1 hline, hrest⟩)

/-- Weights `v` are what weights `w` become by some lines: the last line for a node holds, and what
no line lists stays. -/
structure Follows (lines : List (List Char)) (w v : Weights) : Prop where
  default : v.default = w.default
  listed : ∀ id x, LastGives lines id x → v.own[id]? = some x
  unlisted : ∀ id, Unlisted lines id → v.own[id]? = w.own[id]?

theorem Follows.nil (w : Weights) : Follows [] w w where
  default := rfl
  listed := by
    rintro id x ⟨before, line, after, hlines, -⟩
    simp at hlines
  unlisted _ _ := rfl

/-- One line that is taken, then the rest. -/
theorem Follows.cons {w u v : Weights} (hline : w.addLine line = .ok u) (h : Follows rest u v) :
    Follows (line :: rest) w v := by
  rcases addLine_eq_ok_iff.1 hline with ⟨hnothing, rfl⟩ | ⟨id', x', hgives', rfl⟩
  · refine ⟨h.default, fun id x hlast => ?_,
      fun id hnone => h.unlisted id (unlisted_cons.1 hnone).2⟩
    rcases lastGives_cons.1 hlast with hlast | ⟨hgives, -⟩
    · exact h.listed id x hlast
    · exact absurd hnothing hgives.not_saysNothing
  · refine ⟨h.default, fun id x hlast => ?_, fun id hnone => ?_⟩
    · rcases lastGives_cons.1 hlast with hlast | ⟨hgives, hrest⟩
      · exact h.listed id x hlast
      · obtain ⟨rfl, rfl⟩ := hgives.unique hgives'
        rw [h.unlisted id hrest]
        exact Std.ExtTreeMap.getElem?_insert_self
    · obtain ⟨hfirst, hrest⟩ := unlisted_cons.1 hnone
      have hne : ¬ compare id' id = .eq := by
        intro heq
        obtain rfl := Std.LawfulEqCmp.eq_of_compare heq
        exact hfirst x' hgives'
      rw [h.unlisted id hrest, Std.ExtTreeMap.getElem?_insert, if_neg hne]

/-- What may come of lines of which the first has the number `number`: weights that follow them, or
the first line that is not allowed, by its number. -/
def Outcome (number : Nat) (lines : List (List Char)) (w : Weights) :
    Except ParseFault Weights → Prop
  | .ok v => (∀ line ∈ lines, Proper line) ∧ Follows lines w v
  | .error e => ∃ before line after fault, lines = before ++ line :: after ∧
      (∀ line' ∈ before, Proper line') ∧ ¬ Proper line ∧ e = .line (number + before.length) fault

theorem addLines_spec (w : Weights) (number : Nat) (lines : List (List Char)) :
    Outcome number lines w (w.addLines number lines) := by
  induction lines generalizing w number with
  | nil => exact ⟨fun _ h => absurd h List.not_mem_nil, Follows.nil w⟩
  | cons line rest ih =>
    rw [addLines]
    cases hline : w.addLine line with
    | error fault =>
      refine ⟨[], line, rest, fault, rfl, fun _ h => absurd h List.not_mem_nil, ?_, rfl⟩
      rw [← exists_addLine_iff (w := w), hline]
      rintro ⟨v, hv⟩
      cases hv
    | ok next =>
      have hproper : Proper line := exists_addLine_iff.1 ⟨next, hline⟩
      have hrest := ih next (number + 1)
      dsimp only
      cases hresult : next.addLines (number + 1) rest with
      | ok v =>
        rw [hresult] at hrest
        obtain ⟨hallowed, hfollows⟩ := hrest
        exact ⟨List.forall_mem_cons.2 ⟨hproper, hallowed⟩, hfollows.cons hline⟩
      | error e =>
        rw [hresult] at hrest
        obtain ⟨before, line', after, fault, rfl, hbefore, hnot, rfl⟩ := hrest
        refine ⟨line :: before, line', after, fault, rfl,
          List.forall_mem_cons.2 ⟨hproper, hbefore⟩, hnot, ?_⟩
        rw [List.length_cons, Nat.add_assoc, Nat.add_comm 1]

/-! ### Validity -/

theorem validate_eq_ok_iff {w : Weights} : w.validate = .ok () ↔
    Binary64.isPositive w.default = true ∧
      ∀ (id : NodeId) (x : Float), w.own[id]? = some x → Binary64.isPositive x = true := by
  have hown : (w.own.toList.forM fun entry => check entry.1 entry.2) = .ok () ↔
      ∀ (id : NodeId) (x : Float), w.own[id]? = some x → Binary64.isPositive x = true := by
    rw [forM_eq_ok_iff]
    simp only [Prod.forall, Std.ExtTreeMap.mem_toList_iff_getElem?_eq_some, check_eq_ok_iff]
  rw [← hown, ← @check_eq_ok_iff "default"]
  change (check "default" w.default >>= fun _ =>
    w.own.toList.forM fun entry => check entry.1 entry.2) = _ ↔ _
  rw [bind_eq_ok]
  constructor
  · rintro ⟨⟨⟩, hdefault, hrest⟩
    exact ⟨hdefault, hrest⟩
  · rintro ⟨hdefault, hrest⟩
    exact ⟨(), hdefault, hrest⟩

namespace Follows

variable {v : Weights}

theorem get_of_lastGives (h : Follows lines uniform v) (hlast : LastGives lines id x) :
    v.get id = x := by
  rw [get, h.listed id x hlast]
  rfl

theorem get_of_unlisted (h : Follows lines uniform v) (hnone : Unlisted lines id) :
    v.get id = 1.0 := by
  have hown : v.own[id]? = none := by
    rw [h.unlisted id hnone]
    exact Std.ExtTreeMap.getElem?_empty
  rw [get, hown, h.default]
  rfl

/-- What follows from lines alone passes the check: every weight comes from a line or is the
default. -/
theorem validate_eq_ok (h : Follows lines uniform v) : v.validate = .ok () := by
  refine validate_eq_ok_iff.2 ⟨?_, fun id x hx => ?_⟩
  · rw [h.default]
    decide +kernel
  · rcases exists_lastGives_or_unlisted lines id with ⟨y, hlast⟩ | hnone
    · rw [h.listed id y hlast] at hx
      obtain rfl := Option.some.inj hx
      obtain ⟨before, line, after, -, ⟨number, -, -, hpositive⟩, -⟩ := hlast
      exact isPositive_eq_true_iff.2 hpositive
    · rw [h.unlisted id hnone] at hx
      have hempty : uniform.own[id]? = none := Std.ExtTreeMap.getElem?_empty
      rw [hempty] at hx
      cases hx

end Follows

/-! ### Texts and files -/

theorem ofLines_eq_ok {text : List Char} {w : Weights} (h : ofLines text = .ok w) :
    (∀ line ∈ Text.lines text, Proper line) ∧ Follows (Text.lines text) uniform w := by
  have hspec := addLines_spec uniform 1 (Text.lines text)
  unfold ofLines at h
  rwa [h] at hspec

theorem ofLines_eq_error {text : List Char} {e : ParseFault} (h : ofLines text = .error e) :
    ∃ before line after fault, Text.lines text = before ++ line :: after ∧
      (∀ line' ∈ before, Proper line') ∧ ¬ Proper line ∧ e = .line (before.length + 1) fault := by
  have hspec := addLines_spec uniform 1 (Text.lines text)
  unfold ofLines at h
  rw [h] at hspec
  obtain ⟨before, line, after, fault, hlines, hbefore, hnot, he⟩ := hspec
  refine ⟨before, line, after, fault, hlines, hbefore, hnot, ?_⟩
  rw [he, Nat.add_comm 1]

/-- What is wrong with a line is told after its number. -/
theorem prefix_text_line (number : Nat) (fault : LineFault) :
    ("line " ++ toString number ++ ": ").toList <+: (ParseFault.line number fault).text.toList := by
  have htext : (ParseFault.line number fault).text =
      "line " ++ toString number ++ ": " ++ fault.text := rfl
  rw [htext, String.toList_append (t := fault.text)]
  exact List.prefix_append _ _

/-- Weights that can be read pass the check, in either form. -/
theorem validate_of_weights {text : List Char} {w : Weights} (h : Inputs.weights text = .ok w) :
    w.validate = .ok () := by
  unfold Inputs.weights at h
  split at h
  · obtain ⟨v, -, h⟩ := bind_eq_ok.1 h
    obtain ⟨⟨⟩, hvalid, h⟩ := bind_eq_ok.1 h
    obtain rfl := Except.ok.inj h
    exact mapError_eq_ok.1 hvalid
  · exact (ofLines_eq_ok h).2.validate_eq_ok

/-! ### Exact acceptance -/

/-- A text is read as weights exactly if each of its lines, up to its first `#` and trimmed, is
empty or consists of two words with a gap between them of which the second is a number that is
finite and greater than zero. Then every node has the weight on the last line that lists it, a node
that no line lists has weight 1, and the weights pass the check. Otherwise the first line that is
not of this form is named by its number, counted from 1. Weights that are loaded pass the check
whichever form the file has. -/
theorem ofLines_exact (source : String) (text : List Char) :
    ((∃ w, (ofLines text).mapError (Error.parse source) = .ok w) ↔
      ∀ line ∈ Text.lines text, Proper line) ∧
    (∀ w, (ofLines text).mapError (Error.parse source) = .ok w →
      (∀ id x, LastGives (Text.lines text) id x → w.get id = x) ∧
      (∀ id, Unlisted (Text.lines text) id → w.get id = 1.0) ∧
      w.validate = .ok ()) ∧
    (∀ e, (ofLines text).mapError (Error.parse source) = .error e →
      ∃ before line after reason, Text.lines text = before ++ line :: after ∧
        (∀ line' ∈ before, Proper line') ∧ ¬ Proper line ∧ e = .parse source reason ∧
        ("line " ++ toString (before.length + 1) ++ ": ").toList <+: reason.text.toList) ∧
    ∀ content w, Inputs.load Inputs.weights source content = .ok w → w.validate = .ok () := by
  refine ⟨⟨?_, ?_⟩, fun w h => ?_, fun e h => ?_, fun content w h => ?_⟩
  · rintro ⟨w, hw⟩
    exact (ofLines_eq_ok (mapError_eq_ok.1 hw)).1
  · intro hproper
    cases hresult : ofLines text with
    | ok w => exact ⟨w, rfl⟩
    | error e =>
      obtain ⟨before, line, after, fault, hlines, -, hnot, -⟩ := ofLines_eq_error hresult
      exact absurd (hproper line (by simp [hlines])) hnot
  · have hfollows := (ofLines_eq_ok (mapError_eq_ok.1 h)).2
    exact ⟨fun id x => hfollows.get_of_lastGives, fun id => hfollows.get_of_unlisted,
      hfollows.validate_eq_ok⟩
  · obtain ⟨reason, hreason, rfl⟩ := mapError_eq_error.1 h
    obtain ⟨before, line, after, fault, hlines, hbefore, hnot, rfl⟩ := ofLines_eq_error hreason
    exact ⟨before, line, after, _, hlines, hbefore, hnot, rfl, prefix_text_line _ fault⟩
  · obtain ⟨text, -, h⟩ := bind_eq_ok.1 h
    exact validate_of_weights (mapError_eq_ok.1 h)

/-- Weights with comments, an empty line, line ends of both kinds and two lines for one node. -/
def commentedLines : List Char :=
  "# weights\r\n\n s1\t2.5# first\r\n  # none\n\u00a0s2  1e-3 \ns1 3\n".toList

theorem ofLines_exact_commentedLines :
    (∃ w, (ofLines commentedLines).mapError (Error.parse "weights") = .ok w ∧
      (∀ line ∈ Text.lines commentedLines, Proper line) ∧
      w.get "s1" = 3.0 ∧ w.get "s3" = 1.0 ∧ w.validate = .ok ()) ∧
    (∃ reason, (ofLines (commentedLines ++ "s4 nan".toList)).mapError (Error.parse "weights") =
      .error (.parse "weights" reason) ∧ "line 7: ".toList <+: reason.text.toList) ∧
    ∃ w, Inputs.load Inputs.weights "weights" (some "\x7b\"default_weight\":2e0\x7d".toUTF8) =
      .ok w ∧ w.validate = .ok () := by
  obtain ⟨haccepted, hread, -, hloaded⟩ := ofLines_exact "weights" commentedLines
  have hsome : ((ofLines commentedLines).mapError (Error.parse "weights")).toOption.isSome := by
    decide +kernel
  obtain ⟨w, hw⟩ := Option.isSome_iff_exists.1 hsome
  rw [toOption_eq_some] at hw
  have hproper := haccepted.1 ⟨w, hw⟩
  obtain ⟨hlisted, hunlisted, hvalid⟩ := hread w hw
  refine ⟨⟨w, hw, hproper, hlisted "s1" 3.0 ?_, hunlisted "s3" ?_, hvalid⟩, ?_, ?_⟩
  · refine ⟨(Text.lines commentedLines).take 5, "s1 3".toList, [], by decide +kernel,
      ⟨"3".toList, ⟨" ".toList, ?_⟩, ?_⟩, fun _ h => absurd h List.not_mem_nil⟩
    · decide +kernel
    · decide +kernel
  · have hwords : ∀ line ∈ Text.lines commentedLines,
        (Text.words (Text.beforeComment line)).head? ≠ some "s3".toList := by decide +kernel
    rintro line hline x ⟨number, hpairs, -⟩
    apply hwords line hline
    rw [words_eq_pair_iff.2 hpairs]
    rfl
  · obtain ⟨-, -, hrefused, -⟩ := ofLines_exact "weights" (commentedLines ++ "s4 nan".toList)
    have hlast : Text.lines (commentedLines ++ "s4 nan".toList) =
        Text.lines commentedLines ++ ["s4 nan".toList] := by decide +kernel
    cases hresult : (ofLines (commentedLines ++ "s4 nan".toList)).mapError
        (Error.parse "weights") with
    | ok w' =>
      have hnone : ((ofLines (commentedLines ++ "s4 nan".toList)).mapError
          (Error.parse "weights")).toOption.isSome = false := by decide +kernel
      rw [hresult] at hnone
      cases hnone
    | error e =>
      obtain ⟨before, line, after, reason, hlines, -, hnot, rfl, hprefix⟩ := hrefused e hresult
      -- The lines that were read before are allowed, so only the new one can be refused.
      have hbefore : before = Text.lines commentedLines := by
        rw [hlast, List.append_eq_append_iff] at hlines
        rcases hlines with ⟨xs, rfl, hxs⟩ | ⟨xs, hxs, hrest⟩
        · cases xs with
          | nil => rw [List.append_nil]
          | cons x xs => simp at hxs
        · cases xs with
          | nil => rw [hxs, List.append_nil]
          | cons x xs =>
            obtain ⟨rfl, -⟩ := List.cons.inj hrest
            exact absurd (hproper line (by simp [hxs])) hnot
      refine ⟨reason, rfl, ?_⟩
      rw [hbefore] at hprefix
      exact hprefix
  · have hjson : (Inputs.load Inputs.weights "weights"
        (some "\x7b\"default_weight\":2e0\x7d".toUTF8)).toOption.isSome := by decide +kernel
    obtain ⟨w', hw'⟩ := Option.isSome_iff_exists.1 hjson
    rw [toOption_eq_some] at hw'
    exact ⟨w', hw', hloaded _ w' hw'⟩

end ReplicaRing.Weights
