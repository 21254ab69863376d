import Ippcode.Proofs.Machine.Marked
import Ippcode.Proofs.Machine.ReadBack

/-!
# What is shown of an environment

The text that shows an environment shows all of its frames, the data stack, and how many calls are
not finished (`Environment.dump_inj`) : no string looks like another part of the text, whatever is
in it. The text is cut into lines first. A heading tells how many variables follow, so the frames
are cut off one after the other (`frameLines_inj`, `localLines_inj`). Neither names nor constants
have spaces in them, which tells them from what stands next to them (`Variable.text_inj`,
`Text.listed_inj`), and constants are those of one value (`Value.constant_inj`).

This takes frames whose variables are marked with the place of the frame and have identifiers for
names (`Memory.Legible`). `Environment.IsReached` says which environments can come about, and all of
them are like that (`Environment.IsReached.legible`).
-/

namespace Ippcode

open Ippcode.Text

/-! ## Cutting texts -/

namespace Text

variable {c : Char} {as as' bs bs' : List Char}

/-- Equal texts are equal before and behind the first place where a character stands. -/
theorem cut_inj (absent : c ∉ as) (absent' : c ∉ as') (same : as ++ c :: bs = as' ++ c :: bs') :
    as = as' ∧ bs = bs' := by
  have split {ds es : List Char} (h : c ∉ ds) :
      splitFirst? (· == c) (ds ++ c :: es) = some (ds, c, es) := by
    refine splitFirst?_eq_some_iff.mpr ⟨rfl, beq_self_eq_true c, fun x hx => ?_⟩
    rw [beq_eq_false_iff_ne]
    rintro rfl
    exact h hx
  have parts := (split absent).symm.trans (same ▸ split absent')
  cases parts
  exact ⟨rfl, rfl⟩

/-- Texts with a comma and a space between them. -/
def listed (xs : List (List Char)) : List Char := [',', ' '].intercalate xs

/-- Texts with a comma and a space behind each. -/
def separated (xs : List (List Char)) : List Char := xs.flatMap (· ++ [',', ' '])

/-- Each text is followed by a comma and a space. -/
theorem separated_cons (x : List Char) (xs : List (List Char)) :
    separated (x :: xs) = (x ++ [',']) ++ ' ' :: separated xs := by
  simp [separated]

/-- Texts without spaces are told apart if a space is behind each. -/
theorem separated_inj : ∀ {xs ys : List (List Char)}, (∀ x ∈ xs, ' ' ∉ x) → (∀ y ∈ ys, ' ' ∉ y) →
    separated xs = separated ys → xs = ys
  | [], [], _, _, _ => rfl
  | [], y :: ys, _, _, same => by simp [separated] at same
  | x :: xs, [], _, _, same => by simp [separated] at same
  | x :: xs, y :: ys, hx, hy, same => by
    have noSpace {z : List Char} (h : ' ' ∉ z) : ' ' ∉ z ++ [','] := by simp [h]
    rw [separated_cons, separated_cons] at same
    obtain ⟨first, rest⟩ := cut_inj (noSpace (hx x List.mem_cons_self))
      (noSpace (hy y List.mem_cons_self)) same
    rw [List.append_cancel_right first, separated_inj (fun z hz => hx z (.tail x hz))
      (fun z hz => hy z (.tail y hz)) rest]

/-- In a list the last separator is left out. -/
theorem listed_append : ∀ {xs : List (List Char)}, xs ≠ [] → listed xs ++ [',', ' '] = separated xs
  | [x], _ => by simp [listed, separated]
  | x :: y :: xs, _ => by
    have rest : listed (y :: xs) ++ [',', ' '] = separated (y :: xs) :=
      listed_append (List.cons_ne_nil y xs)
    rw [separated_cons, ← rest]
    simp [listed, List.intercalate]

/-- A list has the characters of its texts, and those between them. -/
theorem mem_listed {xs : List (List Char)} (h : c ∈ listed xs) :
    c = ',' ∨ c = ' ' ∨ ∃ x ∈ xs, c ∈ x := by
  by_cases nil : xs = []
  · subst nil
    cases h
  · have mem : c ∈ separated xs := by
      rw [← listed_append nil]
      exact List.mem_append_left _ h
    obtain ⟨x, hx, hc⟩ := List.mem_flatMap.mp mem
    simp only [List.mem_append, List.mem_cons, List.not_mem_nil, or_false] at hc
    rcases hc with hc | rfl | rfl
    · exact .inr (.inr ⟨x, hx, hc⟩)
    · exact .inl rfl
    · exact .inr (.inl rfl)

/-- A list of texts is not shown as the empty list. -/
theorem listed_ne_nil {xs : List (List Char)} (h : xs ≠ []) (nonempty : ∀ x ∈ xs, x ≠ []) :
    listed xs ≠ [] := by
  intro none
  have whole := listed_append h
  cases xs with
  | nil => exact h rfl
  | cons x xs =>
    have lengths := congrArg List.length whole
    have first := List.length_pos_iff.mpr (nonempty x List.mem_cons_self)
    rw [none, separated_cons] at lengths
    simp only [List.nil_append, List.length_append, List.length_cons, List.length_nil] at lengths
    omega

/-- Texts without spaces are told apart if a comma and a space are between them. -/
theorem listed_inj {xs ys : List (List Char)} (hx : ∀ x ∈ xs, x ≠ [] ∧ ' ' ∉ x)
    (hy : ∀ y ∈ ys, y ≠ [] ∧ ' ' ∉ y) (same : listed xs = listed ys) : xs = ys := by
  by_cases nil : xs = []
  · subst nil
    by_contra differ
    exact listed_ne_nil (Ne.symm differ) (fun y h => (hy y h).1) same.symm
  by_cases nil' : ys = []
  · subst nil'
    exact absurd same (listed_ne_nil nil fun x h => (hx x h).1)
  · refine separated_inj (fun x h => (hx x h).2) (fun y h => (hy y h).2) ?_
    rw [← listed_append nil, ← listed_append nil', same]

end Text

/-! ## Lists and numbers -/

theorem map_inj_of_mem {α β : Type} {f : α → β} :
    ∀ {as bs : List α}, (∀ a ∈ as, ∀ b ∈ bs, f a = f b → a = b) → as.map f = bs.map f → as = bs
  | [], [], _, _ => rfl
  | a :: as, b :: bs, inj, same => by
    obtain ⟨first, others⟩ := List.cons.inj same
    rw [inj a List.mem_cons_self b List.mem_cons_self first, map_inj_of_mem
      (fun x hx y hy => inj x (.tail a hx) y (.tail b hy)) others]

/-- A number is written with digits only. -/
theorem not_mem_repr {c : Char} (h : c.isDigit = false) (n : Nat) : c ∉ n.repr.toList := by
  intro mem
  rw [Nat.toList_repr] at mem
  rw [Numeral.allDigits_toDigits n c mem] at h
  cases h

/-- A number is told from what follows it. -/
theorem repr_inj {m n : Nat} {mark s s' : String}
    (h : mark.toList.head?.map Char.isDigit = some false)
    (same : m.repr ++ (mark ++ s) = n.repr ++ (mark ++ s')) : m = n ∧ s = s' := by
  obtain ⟨c, first, noDigit⟩ := Option.map_eq_some_iff.mp h
  obtain ⟨cs, marked⟩ := List.head?_eq_some_iff.mp first
  have texts := congrArg String.toList same
  simp only [String.toList_append, marked, List.cons_append] at texts
  obtain ⟨digits, rest⟩ := cut_inj (not_mem_repr noDigit m) (not_mem_repr noDigit n) texts
  exact ⟨Nat.repr_inj.mp (String.toList_inj.mp digits),
    String.toList_inj.mp (List.append_cancel_left rest)⟩

/-! ## Values and variables -/

theorem Ty.atSign_not_mem_name (ty : Ty) : '@' ∉ ty.name.toList := by cases ty <;> decide

/-- Types have different names. -/
theorem Ty.name_inj {ty ty' : Ty} (same : ty.name = ty'.name) : ty = ty' := by
  have found := ofName?_name ty
  rw [same, ofName?_name] at found
  exact (Option.some.inj found).symm

namespace Value

variable {v w : Value}

/-- A payload is that of one value of its type. -/
theorem payload_inj (types : v.ty = w.ty) (same : v.payload = w.payload) : v = w := by
  have read (u : Value) : ofPayload u.ty u.payload = .ok u := by
    cases h : u.isNaN with
    | false => exact ofPayload_payload h
    | true =>
      cases u with
      | float x =>
        rw [Binary64.eq_nan_of_isNaN h]
        decide +kernel
      | int _ | bool _ | string _ | nil => cases h
  have again := read v
  rw [types, same, read w] at again
  exact (Except.ok.inj again).symm

/-- A constant is its type and its payload, with a sign between them. -/
theorem toList_constant (v : Value) :
    v.constant.toList = v.ty.name.toList ++ '@' :: v.payload.toList := by
  simp [constant]

/-- A constant is that of one value. -/
theorem constant_inj (same : v.constant = w.constant) : v = w := by
  have texts := congrArg String.toList same
  rw [toList_constant, toList_constant] at texts
  obtain ⟨names, payloads⟩ := cut_inj v.ty.atSign_not_mem_name w.ty.atSign_not_mem_name texts
  exact payload_inj (Ty.name_inj (String.toList_inj.mp names)) (String.toList_inj.mp payloads)

/-- No payload has a space in it. Those of strings are escaped. -/
theorem space_not_mem_payload (v : Value) : ' ' ∉ v.payload.toList := by
  intro mem
  cases v with
  | string s =>
    rw [payload, String.toList_ofList] at mem
    exact absurd (Escape.isWide_of_mem_encode mem (by decide)) (by decide)
  | int _ | float _ | bool _ | nil =>
    refine absurd (isClean_payload ?_ ' ' mem).1 (by decide)
    trivial

theorem space_not_mem_constant (v : Value) : ' ' ∉ v.constant.toList := by
  have name : ' ' ∉ v.ty.name.toList := by cases v.ty <;> decide
  have payload := v.space_not_mem_payload
  rw [toList_constant]
  simp [name, payload]

/-- No constant is empty. -/
theorem constant_ne_nil (v : Value) : v.constant.toList ≠ [] := by
  rw [toList_constant]
  exact List.append_ne_nil_of_right_ne_nil _ (List.cons_ne_nil _ _)

end Value

namespace Variable

variable {v w : Variable}

/-- What stands behind the name of a variable. -/
def valueText : Option Value → String
  | some x => x.constant
  | none => "(undefined)"

/-- A variable without a value is not shown as one with a value. -/
theorem valueText_inj : ∀ {x y : Option Value}, valueText x = valueText y → x = y
  | some x, some y, same => congrArg some (Value.constant_inj same)
  | none, none, _ => rfl
  | some x, none, same => absurd (congrArg String.toList same) (undefined_ne x)
  | none, some y, same => absurd (congrArg String.toList same.symm) (undefined_ne y)
where
  undefined_ne (x : Value) : x.constant.toList ≠ "(undefined)".toList := by
    intro same
    have mem : '@' ∈ x.constant.toList := by simp [Value.toList_constant]
    rw [same] at mem
    exact absurd mem (by decide)

/-- A variable is shown with its frame, its name and its value. -/
theorem toList_text (v : Variable) : v.text.toList = v.frame.name.toList ++
    '@' :: (v.name.toList ++ ' ' :: '=' :: ' ' :: (valueText v.value).toList) := by
  have text : v.text = v.frame.name ++ "@" ++ v.name ++ " = " ++ valueText v.value := rfl
  simp only [text, String.toList_append, List.append_assoc]
  rfl

end Variable

/-! ## Frames -/

namespace Frame

/-- The frame is shown as it is : its variables are marked with the place, in the order of their
names, and their names are identifiers. -/
structure Legible (f : Frame) (kind : FrameKind) : Prop extends f.Housed kind where
  identified : ∀ v ∈ f.entries, isIdentifier v.name = true

variable {f : Frame} {kind : FrameKind} {v : Variable}

theorem legible_empty : empty.Legible kind := ⟨housed_empty, nofun⟩

namespace Legible

/-- A variable whose name is an identifier can be read off a frame. -/
theorem insert (h : f.Legible v.frame) (absent : f.find? v.name = none)
    (named : isIdentifier v.name = true) : (f.insert v).Legible v.frame := by
  refine ⟨h.toHoused.insert absent, fun w hw => ?_⟩
  rcases mem_place.mp hw with rfl | hw
  · exact named
  · exact h.identified w hw

/-- Values can always be read off. -/
theorem assign (h : f.Legible kind) (name : String) (x : Value) :
    (f.assign name x).Legible kind := by
  refine ⟨h.toHoused.assign name x, fun w hw => ?_⟩
  obtain ⟨v, hv, rfl⟩ := List.mem_map.mp hw
  split <;> exact h.identified v hv

theorem mark (h : f.Legible kind) (place : FrameKind) : (f.mark place).Legible place := by
  refine ⟨h.toHoused.mark place, fun w hw => ?_⟩
  obtain ⟨v, hv, rfl⟩ := List.mem_map.mp hw
  exact h.identified v hv

end Legible

end Frame

attribute [ext] Memory

namespace Memory

/-- Every frame is shown as it is. -/
def Legible (m : Memory) : Prop := m.Each fun kind f => f.Legible kind

variable {m m' : Memory} {v : VariableName} {w : Variable}

theorem legible_empty : empty.Legible := ⟨Frame.legible_empty, nofun, nofun⟩

namespace Legible

theorem createTemporary (h : m.Legible) : m.createTemporary.Legible :=
  Each.createTemporary h Frame.legible_empty

theorem pushTemporary (h : m.Legible) (hm : m.pushTemporary = .ok m') : m'.Legible :=
  Each.pushTemporary h (fun _ hf => hf.mark .lf) hm

theorem popLocal (h : m.Legible) (hm : m.popLocal = .ok m') : m'.Legible :=
  Each.popLocal h (fun _ hf => hf.mark .tf) hm

/-- Only declarations have to be about identifiers. -/
theorem insert (h : m.Legible) (named : isIdentifier w.name = true) (hm : m.insert w = .ok m') :
    m'.Legible := by
  obtain ⟨f, hf, absent, rfl⟩ := insert_eq_ok_iff.mp hm
  exact Each.setFrame h ((Each.frame h hf).insert absent named)

theorem assign {x : Value} (h : m.Legible) (hm : m.assign v x = .ok m') : m'.Legible := by
  obtain ⟨f, hf, -, rfl⟩ := assign_eq_ok_iff.mp hm
  exact Each.setFrame h ((Each.frame h hf).assign v.name x)

end Legible

end Memory

namespace Variable

variable {v w : Variable}

/-- A variable with an identifier for a name is told by its text. -/
theorem text_inj (kinds : v.frame = w.frame) (hv : isIdentifier v.name = true)
    (hw : isIdentifier w.name = true) (same : v.text = w.text) : v = w := by
  have noSpace {name : String} (h : isIdentifier name = true) : ' ' ∉ name.toList := fun mem =>
    absurd ((isToken_of_isIdentifier h).clean ' ' mem).1 (by decide)
  have texts := congrArg String.toList same
  rw [toList_text, toList_text, kinds] at texts
  have texts := (List.cons.inj (List.append_cancel_left texts)).2
  obtain ⟨names, rest⟩ := cut_inj (noSpace hv) (noSpace hw) texts
  have values := (List.cons.inj (List.cons.inj rest).2).2
  have values := valueText_inj (String.toList_inj.mp values)
  have names := String.toList_inj.mp names
  obtain ⟨⟨kind, name⟩, value⟩ := v
  obtain ⟨⟨kind', name'⟩, value'⟩ := w
  subst kinds names values
  rfl

end Variable

namespace Environment

variable {f f' : Frame} {kind : FrameKind} {rest rest' : List String}

/-- A frame is shown under its title, together with the number of its variables. -/
theorem frameLines_eq (title : String) (f : Frame) : frameLines title f =
    (title ++ (": " ++ (f.entries.length.repr ++ " variable(s)")))
      :: f.entries.map fun v => "  " ++ v.text := by
  simp [frameLines, toString, String.append_assoc]

/-- The lines of a frame are told from the lines that follow. -/
theorem frameLines_inj {title : String} (legible : f.Legible kind) (legible' : f'.Legible kind)
    (same : frameLines title f ++ rest = frameLines title f' ++ rest') : f = f' ∧ rest = rest' := by
  rw [frameLines_eq, frameLines_eq, List.cons_append, List.cons_append] at same
  obtain ⟨heading, lines⟩ := List.cons.inj same
  have count : f.entries.length = f'.entries.length := by
    rwa [String.append_right_inj, String.append_right_inj, String.append_left_inj,
      Nat.repr_inj] at heading
  obtain ⟨texts, rest⟩ := List.append_inj lines (by simpa using count)
  have entries : f.entries = f'.entries := by
    refine map_inj_of_mem (fun v hv w hw text => ?_) texts
    exact Variable.text_inj ((legible.marked v hv).trans (legible'.marked w hw).symm)
      (legible.identified v hv) (legible'.identified w hw) ((String.append_right_inj _).mp text)
  exact ⟨congrArg Frame.mk entries, rest⟩

/-- A frame that is missing is shown as such, and not as an empty one. -/
theorem temporaryLines_inj {t t' : Option Frame} (legible : ∀ f ∈ t, f.Legible .tf)
    (legible' : ∀ f ∈ t', f.Legible .tf)
    (same : temporaryLines t ++ rest = temporaryLines t' ++ rest') : t = t' ∧ rest = rest' := by
  cases t with
  | none =>
    cases t' with
    | none => exact ⟨rfl, (List.cons.inj same).2⟩
    | some f' =>
      rw [temporaryLines, temporaryLines, frameLines_eq] at same
      exact absurd (List.cons.inj same).1.symm (heading_ne f')
  | some f =>
    cases t' with
    | none =>
      rw [temporaryLines, temporaryLines, frameLines_eq] at same
      exact absurd (List.cons.inj same).1 (heading_ne f)
    | some f' =>
      obtain ⟨frames, rest⟩ := frameLines_inj (legible f rfl) (legible' f' rfl) same
      exact ⟨congrArg some frames, rest⟩
where
  heading_ne (f : Frame) :
      "TF" ++ (": " ++ (f.entries.length.repr ++ " variable(s)")) ≠ "TF: (undefined)" := by
    intro same
    have mem : 'v' ∈ ("TF" ++ (": " ++ (f.entries.length.repr ++ " variable(s)"))).toList := by simp
    rw [same] at mem
    exact absurd mem (by decide)

/-- Local frames are shown from the top, each with its number from below. -/
theorem localLines_cons (f : Frame) (fs : List Frame) :
    localLines (f :: fs) = frameLines ("LF[" ++ (fs.length.repr ++ "]")) f ++ localLines fs := by
  simp [localLines, toString, String.append_assoc]

/-- As many local frames as there are can be read off one after the other. -/
theorem localLines_inj : ∀ {fs fs' : List Frame}, fs.length = fs'.length →
    (∀ f ∈ fs, f.Legible .lf) → (∀ f ∈ fs', f.Legible .lf) →
      localLines fs ++ rest = localLines fs' ++ rest' → fs = fs' ∧ rest = rest'
  | [], [], _, _, _, same => ⟨rfl, same⟩
  | f :: fs, f' :: fs', lengths, legible, legible', same => by
    have below : fs.length = fs'.length := Nat.succ.inj lengths
    rw [localLines_cons, localLines_cons, below, List.append_assoc, List.append_assoc] at same
    obtain ⟨rfl, behind⟩ := frameLines_inj (legible f List.mem_cons_self)
      (legible' f' List.mem_cons_self) same
    obtain ⟨rfl, rest⟩ := localLines_inj below (fun g hg => legible g (.tail f hg))
      (fun g hg => legible' g (.tail f hg)) behind
    exact ⟨rfl, rest⟩

/-- The lines that show the local frames, if there are some or not. -/
def stackLines (fs : List Frame) : List String :=
  if fs.isEmpty then ["LF: (empty stack)"] else localLines fs

/-- The first heading begins with the depth. -/
theorem exists_heading (f : Frame) (fs : List Frame) : ∃ (count : String) (lines : List String),
    stackLines (f :: fs) = ("LF[" ++ (fs.length.repr ++ ("]" ++ count))) :: lines := by
  refine ⟨": " ++ (f.entries.length.repr ++ " variable(s)"),
    (f.entries.map fun v => "  " ++ v.text) ++ localLines fs, ?_⟩
  rw [stackLines, List.isEmpty_cons, if_neg Bool.false_ne_true, localLines_cons, frameLines_eq,
    String.append_assoc, String.append_assoc]
  rfl

/-- The heading of the first local frame tells how many there are. -/
theorem stackLines_inj {fs fs' : List Frame} (legible : ∀ f ∈ fs, f.Legible .lf)
    (legible' : ∀ f ∈ fs', f.Legible .lf) (same : stackLines fs ++ rest = stackLines fs' ++ rest') :
    fs = fs' ∧ rest = rest' := by
  cases fs with
  | nil =>
    cases fs' with
    | nil => exact ⟨rfl, (List.cons.inj same).2⟩
    | cons f' fs' => exact absurd same (empty_ne f' fs')
  | cons f fs =>
    cases fs' with
    | nil => exact absurd same.symm (empty_ne f fs)
    | cons f' fs' =>
      -- the heading of the top frame tells how many frames are below it
      refine localLines_inj ?_ legible legible' same
      obtain ⟨_, _, first⟩ := exists_heading f fs
      obtain ⟨_, _, first'⟩ := exists_heading f' fs'
      rw [first, first'] at same
      have heading := (String.append_right_inj _).mp (List.cons.inj same).1
      exact congrArg Nat.succ (repr_inj (by decide) heading).1
where
  empty_ne {rest rest' : List String} (f : Frame) (fs : List Frame) :
      stackLines [] ++ rest ≠ stackLines (f :: fs) ++ rest' := by
    intro same
    obtain ⟨_, _, first⟩ := exists_heading f fs
    rw [first] at same
    have texts := congrArg String.toList (List.cons.inj same).1
    rw [String.toList_append] at texts
    exact absurd (List.cons.inj (List.cons.inj (List.cons.inj texts).2).2).1 (by decide)

/-- The constants of the data stack, from its bottom up. -/
def dataText (e : Environment) : String := ", ".intercalate (e.data.reverse.map Value.constant)

theorem toList_dataText (e : Environment) :
    e.dataText.toList = listed (e.data.reverse.map fun v => v.constant.toList) := by
  rw [dataText, String.toList_intercalate, List.map_map]
  rfl

/-- The data stack is shown as one list of constants. -/
theorem dataText_inj {e e' : Environment} (same : e.dataText = e'.dataText) : e.data = e'.data := by
  have texts := congrArg String.toList same
  rw [toList_dataText, toList_dataText] at texts
  have separable (vs : List Value) :
      ∀ x ∈ vs.map fun v => v.constant.toList, x ≠ [] ∧ ' ' ∉ x := by
    intro x hx
    obtain ⟨v, -, rfl⟩ := List.mem_map.mp hx
    exact ⟨v.constant_ne_nil, v.space_not_mem_constant⟩
  have constants := listed_inj (separable _) (separable _) texts
  have values := map_inj_of_mem
    (fun v _ w _ text => Value.constant_inj (String.toList_inj.mp text)) constants
  exact List.reverse_injective values

theorem dumpLines_eq (e : Environment) (order position : Nat) : e.dumpLines order position =
    ("BREAK at order " ++ (order.repr ++ (" (instruction " ++ (position.repr ++ ")")))) ::
      (frameLines "GF" e.memory.globals ++ (temporaryLines e.memory.temporary ++
        (stackLines e.memory.locals ++
          ["data stack: [" ++ (e.dataText ++ "]"), "call depth: " ++ e.callDepth.repr]))) := by
  simp [dumpLines, stackLines, dataText, toString, String.append_assoc]

variable {e e' : Environment} {order order' position position' : Nat}

/-- The lines of an environment tell it as far as it is shown. -/
theorem dumpLines_inj (h : e.memory.Legible) (h' : e'.memory.Legible)
    (same : e.dumpLines order position = e'.dumpLines order' position') :
    order = order' ∧ position = position' ∧ e.memory = e'.memory ∧ e.data = e'.data ∧
      e.callDepth = e'.callDepth := by
  rw [dumpLines_eq, dumpLines_eq] at same
  obtain ⟨heading, lines⟩ := List.cons.inj same
  obtain ⟨globals, lines⟩ := frameLines_inj h.globals h'.globals lines
  obtain ⟨temporaries, lines⟩ := temporaryLines_inj h.temporary h'.temporary lines
  obtain ⟨locals, lines⟩ := stackLines_inj h.locals h'.locals lines
  obtain ⟨data, lines⟩ := List.cons.inj lines
  obtain ⟨orders, rest⟩ := repr_inj (by decide) ((String.append_right_inj _).mp heading)
  have depths := (String.append_right_inj _).mp (List.cons.inj lines).1
  refine ⟨orders, ?_, Memory.ext globals temporaries locals, dataText_inj ?_, ?_⟩
  · rwa [String.append_left_inj, Nat.repr_inj] at rest
  · rwa [String.append_right_inj, String.append_left_inj] at data
  · exact Nat.repr_inj.mp depths

/-! ### One line each -/

/-- A text has no end of a line in it. -/
def IsOneLine (text : String) : Prop := ∀ c ∈ text.toList, c ≠ '\n' ∧ c ≠ '\r'

instance (text : String) : Decidable (IsOneLine text) := List.decidableBAll _ text.toList

namespace IsOneLine

/-- Texts of one line make up a text of one line. -/
theorem append {s t : String} (hs : IsOneLine s) (ht : IsOneLine t) : IsOneLine (s ++ t) := by
  intro c hc
  rw [String.toList_append, List.mem_append] at hc
  exact hc.elim (hs c) (ht c)

theorem repr (n : Nat) : IsOneLine n.repr := by
  intro c hc
  constructor
  · rintro rfl
    exact not_mem_repr (by decide) n hc
  · rintro rfl
    exact not_mem_repr (by decide) n hc

/-- Line ends in strings are escaped. -/
theorem constant (v : Value) : IsOneLine v.constant := by
  have name : IsOneLine v.ty.name := by cases v.ty <;> decide
  exact (name.append (by decide)).append Value.ne_lineEnd_of_mem_payload

theorem text {v : Variable} (named : isIdentifier v.name = true) : IsOneLine v.text := by
  have frame : IsOneLine v.frame.name := by cases v.frame <;> decide
  have name : IsOneLine v.name := (isToken_of_isIdentifier named).clean.ne_lineEnd
  refine ((((frame.append (by decide)).append name).append (by decide))).append ?_
  split
  · exact constant _
  · decide

theorem dataText (e : Environment) : IsOneLine e.dataText := by
  intro c hc
  rw [toList_dataText] at hc
  rcases mem_listed hc with rfl | rfl | ⟨x, hx, hc⟩
  · decide
  · decide
  · obtain ⟨v, -, rfl⟩ := List.mem_map.mp hx
    exact constant v c hc

theorem frameLines {title : String} {f : Frame} {kind : FrameKind} (ht : IsOneLine title)
    (legible : f.Legible kind) : ∀ l ∈ frameLines title f, IsOneLine l := by
  rw [frameLines_eq]
  refine List.forall_mem_cons.mpr ⟨?_, fun l hl => ?_⟩
  · exact ht.append (append (by decide) ((repr _).append (by decide)))
  · obtain ⟨v, hv, rfl⟩ := List.mem_map.mp hl
    exact append (by decide) (text (legible.identified v hv))

theorem temporaryLines {t : Option Frame} (legible : ∀ f ∈ t, f.Legible .tf) :
    ∀ l ∈ temporaryLines t, IsOneLine l := by
  cases t with
  | none => exact List.forall_mem_singleton.mpr (by decide)
  | some f => exact frameLines (by decide) (legible f rfl)

theorem localLines : ∀ {fs : List Frame}, (∀ f ∈ fs, f.Legible .lf) →
    ∀ l ∈ localLines fs, IsOneLine l
  | [], _ => nofun
  | f :: fs, legible => by
    obtain ⟨first, others⟩ := List.forall_mem_cons.mp legible
    rw [localLines_cons]
    refine List.forall_mem_append.mpr ⟨frameLines ?_ first, localLines others⟩
    exact append (by decide) ((repr _).append (by decide))

theorem stackLines {fs : List Frame} (legible : ∀ f ∈ fs, f.Legible .lf) :
    ∀ l ∈ stackLines fs, IsOneLine l := by
  cases fs with
  | nil => exact List.forall_mem_singleton.mpr (by decide)
  | cons f fs => exact localLines legible

theorem dumpLines {e : Environment} (legible : e.memory.Legible) (order position : Nat) :
    ∀ l ∈ e.dumpLines order position, IsOneLine l := by
  rw [dumpLines_eq]
  refine List.forall_mem_cons.mpr ⟨?_, List.forall_mem_append.mpr ⟨frameLines (by decide)
    legible.globals, List.forall_mem_append.mpr ⟨temporaryLines legible.temporary,
    List.forall_mem_append.mpr ⟨stackLines legible.locals, ?_⟩⟩⟩⟩
  · exact append (by decide)
      ((repr _).append (append (by decide) ((repr _).append (by decide))))
  · refine List.forall_mem_cons.mpr ⟨?_, List.forall_mem_singleton.mpr ?_⟩
    · exact append (by decide) ((dataText e).append (by decide))
    · exact append (by decide) (repr _)

end IsOneLine

/-- The text is cut into its lines again. -/
theorem lines_dump {e : Environment} (legible : e.memory.Legible) (order position : Nat) :
    Text.lines (e.dump order position).toList =
      (e.dumpLines order position).map String.toList := by
  have whole : (e.dump order position).toList =
      stacked ((e.dumpLines order position).map String.toList) := by
    simp [dump, stacked, String.toList_join, List.flatMap_map]
  rw [whole]
  refine lines_stacked fun l hl => ?_
  obtain ⟨line, hline, rfl⟩ := List.mem_map.mp hl
  exact IsOneLine.dumpLines legible order position line hline

/-! ## All environments -/

/-- What can become of the environment of a program that has not started, if the variables that are
declared have identifiers for names. What fails changes nothing. -/
inductive IsReached : Environment → Prop
  | empty : IsReached .empty
  | registerLabel {e e' : Environment} {name : String} {position : Nat} (h : IsReached e)
      (done : e.registerLabel name position = .ok e') : IsReached e'
  | pushCall {e : Environment} (position : Nat) (h : IsReached e) : IsReached (e.pushCall position)
  | popCall {e e' : Environment} {position : Nat} (h : IsReached e)
      (done : e.popCall = .ok (position, e')) : IsReached e'
  | pushData {e : Environment} (v : Value) (h : IsReached e) : IsReached (e.pushData v)
  | popData {e e' : Environment} {v : Value} (h : IsReached e) (done : e.popData = .ok (v, e')) :
      IsReached e'
  | clearData {e : Environment} (h : IsReached e) : IsReached e.clearData
  | createTemporary {e : Environment} (h : IsReached e) :
      IsReached { e with memory := e.memory.createTemporary }
  | pushTemporary {e : Environment} {m : Memory} (h : IsReached e)
      (done : e.memory.pushTemporary = .ok m) : IsReached { e with memory := m }
  | popLocal {e : Environment} {m : Memory} (h : IsReached e)
      (done : e.memory.popLocal = .ok m) : IsReached { e with memory := m }
  | insert {e : Environment} {m : Memory} {v : Variable} (h : IsReached e)
      (named : isIdentifier v.name = true) (done : e.memory.insert v = .ok m) :
      IsReached { e with memory := m }
  | declare {e : Environment} {m : Memory} {v : VariableName} (h : IsReached e)
      (named : isIdentifier v.name = true) (done : e.memory.declare v = .ok m) :
      IsReached { e with memory := m }
  | assign {e : Environment} {m : Memory} {v : VariableName} {x : Value} (h : IsReached e)
      (done : e.memory.assign v x = .ok m) : IsReached { e with memory := m }

theorem memory_of_registerLabel {name : String} (done : e.registerLabel name position = .ok e') :
    e'.memory = e.memory := by
  unfold registerLabel at done
  split at done <;> cases done
  rfl

theorem memory_of_popCall (done : e.popCall = .ok (position, e')) : e'.memory = e.memory := by
  unfold popCall at done
  split at done <;> cases done
  rfl

theorem memory_of_popData {v : Value} (done : e.popData = .ok (v, e')) :
    e'.memory = e.memory := by
  unfold popData at done
  split at done <;> cases done
  rfl

theorem IsReached.legible (h : e.IsReached) : e.memory.Legible := by
  induction h with
  | empty => exact Memory.legible_empty
  | registerLabel _ done ih => exact memory_of_registerLabel done ▸ ih
  | popCall _ done ih => exact memory_of_popCall done ▸ ih
  | popData _ done ih => exact memory_of_popData done ▸ ih
  | pushCall _ _ ih | pushData _ _ ih | clearData _ ih => exact ih
  | createTemporary _ ih => exact ih.createTemporary
  | pushTemporary _ done ih => exact ih.pushTemporary done
  | popLocal _ done ih => exact ih.popLocal done
  | insert _ named done ih => exact ih.insert named done
  | declare _ named done ih => exact ih.insert named done
  | assign _ done ih => exact ih.assign done

/-- Two environments that are shown by the same text, at any instructions, are shown at the same
instruction, have the same frames with the same variables and values, the same data stack, and as
many unfinished calls. No value looks like another part of the text. There is one NaN among the
doubles, and every other double is told by its text. -/
theorem dump_inj (h : e.IsReached) (h' : e'.IsReached)
    (same : e.dump order position = e'.dump order' position') :
    order = order' ∧ position = position' ∧ e.memory = e'.memory ∧ e.data = e'.data ∧
      e.callDepth = e'.callDepth := by
  have lines := congrArg (fun text => Text.lines text.toList) same
  simp only [lines_dump h.legible, lines_dump h'.legible] at lines
  have lines := map_inj_of_mem (fun _ _ _ _ => String.toList_inj.mp) lines
  exact dumpLines_inj h.legible h'.legible lines

/-- A string that holds the end of the list and the line of another variable. The text does not
tell where the call goes on, and it does tell the string from what it looks like. -/
theorem dump_inj_lookalike :
    let value : Value := .string "]\n  GF@b = int@1, bool@true"
    let shown (position : Nat) (data : List Value) : Environment :=
      ⟨⟨⟨[⟨⟨.gf, "a"⟩, some value⟩, ⟨⟨.gf, "b"⟩, none⟩]⟩, none, []⟩, [], [position], data⟩
    (shown 1 [.int 1, value]).dump 7 6 = (shown 2 [.int 1, value]).dump 7 6 ∧
      (shown 1 [.int 1, value]).callDepth = (shown 2 [.int 1, value]).callDepth ∧
      (shown 1 [.string "a, int@1"]).dump 7 6 ≠ (shown 1 [.int 1, .string "a"]).dump 7 6 := by
  intro value shown
  let declared (entries : List Variable) : Environment := ⟨⟨⟨entries⟩, none, []⟩, [], [], []⟩
  have one : (declared [⟨⟨.gf, "b"⟩, none⟩]).IsReached :=
    .declare (v := ⟨.gf, "b"⟩) .empty (by decide) (by decide)
  have two : (declared [⟨⟨.gf, "a"⟩, none⟩, ⟨⟨.gf, "b"⟩, none⟩]).IsReached :=
    .declare (e := declared _) (v := ⟨.gf, "a"⟩) one (by decide) (by decide)
  have reached (position : Nat) : (shown position []).IsReached :=
    .pushCall position (.assign (e := declared _) (v := ⟨.gf, "a"⟩) (x := value) two (by decide))
  have both (position : Nat) : (shown position [.int 1, value]).IsReached :=
    .pushData (.int 1) (.pushData value (reached position))
  have same : (shown 1 [.int 1, value]).dump 7 6 = (shown 2 [.int 1, value]).dump 7 6 := rfl
  refine ⟨same, (dump_inj (both 1) (both 2) same).2.2.2.2, fun alike => ?_⟩
  have data := (dump_inj (.pushData (.string "a, int@1") (reached 1))
    (.pushData (.int 1) (.pushData (.string "a") (reached 1))) alike).2.2.2.1
  exact absurd data (by decide)

end Environment

end Ippcode
