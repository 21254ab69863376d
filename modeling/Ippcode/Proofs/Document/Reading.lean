import Ippcode.Document.Reader
import Ippcode.Proofs.Keyed
import Ippcode.Proofs.Listing.Reading
import Ippcode.Proofs.Result

/-!
# What a document says

The reader of documents in terms of what it accepts. A text of a kind is read as an argument
exactly if the argument has this kind and the token that the two make together writes it
(`argument_eq_ok_iff`). So both readers have one notion of what is written.

The elements of the arguments may stand in any order. What is read of them has each position once
(`arguments_eq_ok_iff`), so their names decide about the order
(`forall₂_argumentElements`).
-/

namespace Ippcode.Document

open Ippcode.Text
open Xml (Element)

/-- Among elements there is nothing else to skip. -/
theorem elements_map_toNode (name : String) (attributes : List Xml.Attribute) (es : List Element) :
    Element.elements ⟨name, attributes, es.map Element.toNode⟩ = es := by
  rw [Element.elements, List.filterMap_map]
  exact List.filterMap_some

/-! ## Arguments -/

/-- The kinds of arguments that are not constants. -/
def bareKinds : List String := ["var", "label", "type"]

/-- The token for an argument of this kind with this text. Strings are not trimmed. -/
def token (kind text : String) : String :=
  if kind = "string" then kind ++ "@" ++ text
  else if kind ∈ bareKinds then trimmed text
  else kind ++ "@" ++ trimmed text

/-- Variables, labels and types are written in documents as in listings. -/
theorem token_bare {kind : String} (h : kind ∈ bareKinds) (text : String) :
    token kind text = trimmed text := by
  have : kind ≠ "string" := by
    rintro rfl
    exact absurd h (by decide)
  rw [token, if_neg this, if_pos h]

/-- A string is written as it is, with blanks around it. -/
theorem token_string (text : String) :
    token "string" text = Ty.name .string ++ "@" ++ text := by
  rw [token, if_pos rfl, Ty.name]

/-- The name of a type is no other kind. -/
theorem ty_name_not_mem (ty : Ty) : ty.name ∉ bareKinds := by
  cases ty <;> decide

theorem ty_name_ne_string {ty : Ty} (h : ty ≠ .string) : ty.name ≠ "string" := by
  revert h
  cases ty <;> decide

/-- Around other payloads blanks do not count. -/
theorem token_constant {ty : Ty} (h : ty ≠ .string) (text : String) :
    token ty.name text = ty.name ++ "@" ++ trimmed text := by
  rw [token, if_neg (ty_name_ne_string h), if_neg (ty_name_not_mem ty)]

/-- A text without blanks is not trimmed. -/
theorem trimmed_of_isClean {text : String} (h : IsClean text.toList) : trimmed text = text := by
  rw [trimmed, trim_of_isClean h, String.ofList_toList]

/-- There is nothing to trim around a payload that can be read. -/
theorem token_of_ofPayload {ty : Ty} {payload : String} {value : Value}
    (h : Value.ofPayload ty payload = .ok value) :
    token ty.name payload = ty.name ++ "@" ++ payload := by
  by_cases hs : ty = .string
  · rw [hs]
    exact token_string payload
  · rw [token_constant hs, trimmed_of_isClean (Value.isClean_of_ofPayload hs h)]

section

variable {order : Nat} {text : String} {arg : Argument}

/-- A variable is read from its text with blanks around it. -/
theorem argument_var_eq_ok_iff : argument order "var" text = .ok arg ↔
    ∃ v, arg = .var v ∧ isIdentifier v.name = true ∧ trimmed text = v.text := by
  rw [argument, if_neg (by decide), if_pos rfl]
  constructor
  · intro h
    split at h
    · cases h
    · rename_i before name parts
      split at h
      · cases h
      · rename_i frame hframe
        split at h
        · rename_i identifier
          refine ⟨⟨frame, name⟩, (Except.ok.inj h).symm, identifier, ?_⟩
          rw [(splitAtSign?_eq_some_iff.mp parts).1, ← FrameKind.name_of_ofName? hframe]
          rfl
        · cases h
  · rintro ⟨v, rfl, identifier, e⟩
    simp only [e, splitAtSign?_var, FrameKind.ofName?_name, identifier, if_true]

theorem argument_label_eq_ok_iff : argument order "label" text = .ok arg ↔
    ∃ name, arg = .label name ∧ isIdentifier name = true ∧ trimmed text = name := by
  rw [argument, if_neg (by decide), if_neg (by decide), if_pos rfl]
  constructor
  · intro h
    split at h
    · rename_i identifier
      exact ⟨trimmed text, (Except.ok.inj h).symm, identifier, rfl⟩
    · cases h
  · rintro ⟨name, rfl, identifier, e⟩
    rw [e, if_pos identifier]

theorem argument_type_eq_ok_iff : argument order "type" text = .ok arg ↔
    ∃ ty, arg = .type ty ∧ ty.isReadable = true ∧ trimmed text = ty.name := by
  rw [argument, if_neg (by decide), if_neg (by decide), if_neg (by decide), if_pos rfl]
  constructor
  · intro h
    split at h
    · rename_i ty hty
      obtain ⟨name, readable⟩ := Option.filter_eq_some_iff.mp hty
      exact ⟨ty, (Except.ok.inj h).symm, readable, (Ty.name_of_ofName? name).symm⟩
    · cases h
  · rintro ⟨ty, rfl, readable, e⟩
    simp only [e, Ty.ofName?_name, Option.filter_some, readable, if_true]

/-- A string is read from the whole of its text. -/
theorem argument_string_eq_ok_iff : argument order "string" text = .ok arg ↔
    ∃ value, arg = .constant value ∧ Value.ofPayload .string text = .ok value := by
  rw [argument, if_pos rfl]
  cases Value.ofPayload .string text with
  | ok value => simp [eq_comm]
  | error cause => simp

/-- Other constants name their type in an attribute. -/
theorem argument_constant_eq_ok_iff {kind : String} (hs : kind ≠ "string") (hb : kind ∉ bareKinds) :
    argument order kind text = .ok arg ↔
      ∃ value, arg = .constant value ∧ Value.ofConstant kind (trimmed text) = .ok value := by
  have hb : kind ≠ "var" ∧ kind ≠ "label" ∧ kind ≠ "type" := by
    simpa [bareKinds] using hb
  rw [argument, if_neg hs, if_neg hb.1, if_neg hb.2.1, if_neg hb.2.2]
  cases Value.ofConstant kind (trimmed text) with
  | ok value => simp [eq_comm]
  | error cause => simp

end

/-- What is behind the sign of a constant is its payload. -/
theorem atSign_inj {name s t : String} (h : (name ++ "@" ++ s).toList = (name ++ "@" ++ t).toList) :
    s = t := by
  rw [← String.toList_inj]
  simpa using h

/-- Whatever is read is written by the token that a listing would have. -/
theorem argument_sound {order : Nat} {kind text : String} {arg : Argument}
    (h : argument order kind text = .ok arg) :
    kind = arg.kind.name ∧ Listing.Writes (token kind text).toList arg := by
  by_cases hs : kind = "string"
  · subst hs
    obtain ⟨value, rfl, read⟩ := argument_string_eq_ok_iff.mp h
    rw [token_string, Argument.kind, Value.ty_of_ofPayload read]
    exact ⟨rfl, .constant read⟩
  · by_cases hb : kind ∈ bareKinds
    · rw [token_bare hb]
      have hb : kind = "var" ∨ kind = "label" ∨ kind = "type" := by
        simpa [bareKinds] using hb
      rcases hb with rfl | rfl | rfl
      · obtain ⟨v, rfl, identifier, e⟩ := argument_var_eq_ok_iff.mp h
        rw [e]
        exact ⟨rfl, .var identifier⟩
      · obtain ⟨name, rfl, identifier, e⟩ := argument_label_eq_ok_iff.mp h
        rw [e]
        exact ⟨rfl, .label identifier⟩
      · obtain ⟨ty, rfl, readable, e⟩ := argument_type_eq_ok_iff.mp h
        rw [e]
        exact ⟨rfl, .type readable⟩
    · obtain ⟨value, rfl, whole⟩ := (argument_constant_eq_ok_iff hs hb).mp h
      obtain ⟨ty, rfl, read⟩ := Value.ofConstant_eq_ok_iff.mp whole
      have other : ty ≠ .string := by
        rintro rfl
        exact hs rfl
      rw [token_constant other, Argument.kind, Value.ty_of_ofPayload read]
      exact ⟨rfl, .constant read⟩

/-- Whatever a listing can write is read. -/
theorem argument_complete {order : Nat} {text : String} {arg : Argument}
    (h : Listing.Writes (token arg.kind.name text).toList arg) :
    argument order arg.kind.name text = .ok arg := by
  cases arg with
  | var v =>
    obtain ⟨identifier, e⟩ := Listing.Writes.var_iff.mp h
    exact argument_var_eq_ok_iff.mpr ⟨v, rfl, identifier, String.toList_inj.mp e⟩
  | label name =>
    obtain ⟨identifier, e⟩ := Listing.Writes.label_iff.mp h
    exact argument_label_eq_ok_iff.mpr ⟨name, rfl, identifier, String.toList_inj.mp e⟩
  | type ty =>
    obtain ⟨readable, e⟩ := Listing.Writes.type_iff.mp h
    exact argument_type_eq_ok_iff.mpr ⟨ty, rfl, readable, String.toList_inj.mp e⟩
  | constant value =>
    have hkind : (Argument.constant value).kind.name = value.ty.name := rfl
    rw [hkind] at h ⊢
    obtain ⟨payload, read, e⟩ := Listing.Writes.constant_iff.mp h
    by_cases hs : value.ty = .string
    · rw [hs] at e read ⊢
      have htoken : token (Ty.name .string) text = Ty.name .string ++ "@" ++ text :=
        token_string text
      rw [htoken] at e
      obtain rfl := atSign_inj e
      exact argument_string_eq_ok_iff.mpr ⟨value, rfl, read⟩
    · rw [token_constant hs] at e
      obtain rfl := atSign_inj e
      have other := ty_name_ne_string hs
      refine (argument_constant_eq_ok_iff other (ty_name_not_mem _)).mpr ⟨value, rfl, ?_⟩
      exact Value.ofConstant_eq_ok_iff.mpr ⟨value.ty, rfl, read⟩

/-- What a text of a kind is read as is what the token of the two writes. -/
theorem argument_eq_ok_iff {order : Nat} {kind text : String} {arg : Argument} :
    argument order kind text = .ok arg ↔
      kind = arg.kind.name ∧ Listing.Writes (token kind text).toList arg := by
  constructor
  · exact argument_sound
  · rintro ⟨rfl, h⟩
    exact argument_complete h

/-! ## Arguments by their positions -/

/-- What is read of the element of an argument, with the position. -/
structure Reads (order : Nat) (e : Element) (read : Nat × Argument) : Prop where
  position : position? e.name = some read.1
  attributes : hasAttributes e ["type"] [] = true
  argument : argument order (valueOf e "type") e.text = .ok read.2

section

variable {order : Nat} {read out : List (Nat × Argument)} {e : Element} {es : List Element}

/-- An argument at a position that is still free. -/
theorem arguments_cons_of_reads {new : Nat × Argument} (h : Reads order e new)
    (fresh : new.1 ∉ read.map Prod.fst) :
    arguments order read (e :: es) = arguments order (read ++ [new]) es := by
  have first : (read.lookup new.1).isSome = false := by
    rw [← Bool.not_eq_true, lookup_isSome_iff]
    exact fresh
  rw [arguments, h.position]
  simp only [first, h.attributes, h.argument, Bool.not_true, Bool.false_eq_true, if_false]

/-- No position is given twice. -/
theorem reads_of_arguments_cons (h : arguments order read (e :: es) = .ok out) :
    ∃ new, Reads order e new ∧ new.1 ∉ read.map Prod.fst ∧
      arguments order (read ++ [new]) es = .ok out := by
  rw [arguments] at h
  split at h
  · cases h
  · rename_i position hposition
    split at h
    · cases h
    · rename_i first
      split at h
      · cases h
      · rename_i attributes
        split at h
        · cases h
        · rename_i arg harg
          rw [lookup_isSome_iff] at first
          exact ⟨(position, arg), ⟨hposition, by simpa using attributes, harg⟩, first, h⟩

theorem nodup_concat_iff {new : Nat × Argument} :
    ((read ++ [new]).map Prod.fst).Nodup ↔
      new.1 ∉ read.map Prod.fst ∧ (read.map Prod.fst).Nodup := by
  rw [List.map_append, List.nodup_append_comm, List.map_singleton, List.singleton_append,
    List.nodup_cons]

end

/-- Elements of arguments are read if each is, and no position is there twice. -/
theorem arguments_eq_ok_iff {order : Nat} : ∀ {read : List (Nat × Argument)} {es : List Element}
    {out : List (Nat × Argument)}, (read.map Prod.fst).Nodup →
      (arguments order read es = .ok out ↔
        ∃ new, List.Forall₂ (Reads order) es new ∧ ((read ++ new).map Prod.fst).Nodup ∧
          out = read ++ new)
  | read, [], out, distinct => by
    rw [arguments]
    constructor
    · intro h
      obtain rfl := Except.ok.inj h
      refine ⟨[], .nil, ?_, (List.append_nil read).symm⟩
      rwa [List.append_nil]
    · rintro ⟨new, reads, -, rfl⟩
      obtain rfl := List.forall₂_nil_left_iff.mp reads
      rw [List.append_nil]
  | read, e :: es, out, distinct => by
    have ih {new : Nat × Argument} (fresh : ((read ++ [new]).map Prod.fst).Nodup) :
        arguments order (read ++ [new]) es = .ok out ↔ _ := arguments_eq_ok_iff fresh
    constructor
    · intro h
      obtain ⟨first, reads, fresh, h⟩ := reads_of_arguments_cons h
      obtain ⟨new, rest, nodup, rfl⟩ := (ih (nodup_concat_iff.mpr ⟨fresh, distinct⟩)).mp h
      rw [List.append_assoc, List.singleton_append] at nodup ⊢
      exact ⟨first :: new, .cons reads rest, nodup, rfl⟩
    · rintro ⟨new, reads, nodup, rfl⟩
      obtain ⟨first, rest, hfirst, hrest, rfl⟩ := List.forall₂_cons_left_iff.mp reads
      have split : read ++ first :: rest = read ++ [first] ++ rest := by simp
      rw [split] at nodup
      have distinct' : ((read ++ [first]).map Prod.fst).Nodup := by
        rw [List.map_append] at nodup
        exact nodup.of_append_left
      rw [arguments_cons_of_reads hfirst (nodup_concat_iff.mp distinct').1]
      exact (ih distinct').mpr ⟨rest, hrest, nodup, split⟩

/-- Arguments may come in any order, each position once. -/
theorem arguments_nil_eq_ok_iff {order : Nat} {es : List Element} {out : List (Nat × Argument)} :
    arguments order [] es = .ok out ↔
      List.Forall₂ (Reads order) es out ∧ (out.map Prod.fst).Nodup := by
  rw [arguments_eq_ok_iff (by exact List.nodup_nil)]
  constructor
  · rintro ⟨new, reads, distinct, rfl⟩
    exact ⟨reads, distinct⟩
  · rintro ⟨reads, distinct⟩
    exact ⟨out, reads, distinct, rfl⟩

/-! ## The order of arguments -/

/-- The names of the elements of arguments, by their positions. -/
def argumentNames : List String := ["arg1", "arg2", "arg3"]

/-- The elements of arguments by their names, whatever their order. -/
def argumentElements (es : List Element) : List Element :=
  argumentNames.filterMap fun name => es.find? fun e => e.name == name

/-- No name stands for two positions. -/
theorem position?_eq_some_iff {name : String} {position : Nat} :
    position? name = some position ↔ argumentNames[position]? = some name := by
  rw [position?, List.idxOf?_eq_some_iff, List.getElem?_eq_some_iff]
  constructor
  · rintro ⟨within, e, -⟩
    exact ⟨within, e⟩
  · rintro ⟨within, rfl⟩
    refine ⟨within, rfl, fun before hbefore same => ?_⟩
    have distinct : argumentNames.Nodup := by decide
    exact absurd (distinct.getElem_inj_iff.mp same) (by omega)

/-- Of the elements, the one with the name of a position is read as what is read there. -/
theorem rel_find?_lookup {order : Nat} {es : List Element} {read : List (Nat × Argument)}
    (reads : List.Forall₂ (Reads order) es read) {name : String} {position : Nat}
    (hname : argumentNames[position]? = some name) :
    Option.Rel (fun e arg => argument order (valueOf e "type") e.text = .ok arg)
      (es.find? fun e => e.name == name) (read.lookup position) := by
  induction reads with
  | nil => exact .none
  | @cons e new es read first rest ih =>
    obtain ⟨key, arg⟩ := new
    by_cases same : e.name = name
    · obtain rfl : position = key := by
        have := position?_eq_some_iff.mpr hname
        rw [← same, first.position] at this
        exact (Option.some.inj this).symm
      rw [List.find?_cons_of_pos (by simpa using same), List.lookup_cons_self]
      exact .some first.argument
    · have other : (position == key) = false := by
        rw [beq_eq_false_iff_ne]
        rintro rfl
        rw [position?_eq_some_iff.mp first.position] at hname
        exact same (Option.some.inj hname)
      rw [List.find?_cons_of_neg (by simpa using same), List.lookup_cons, other]
      exact ih

/-- Positions without a gap are those up to their number. -/
theorem lt_length_of_mem {keys : List Nat} (noGap : ∀ key < keys.length, key ∈ keys) {key : Nat}
    (h : key ∈ keys) : key < keys.length := by
  by_contra beyond
  have others : List.range keys.length ⊆ keys.erase key := by
    intro other hother
    have hother := List.mem_range.mp hother
    exact (List.mem_erase_of_ne (by omega)).mpr (noGap other hother)
  have := (List.subperm_of_subset List.nodup_range others).length_le
  rw [List.length_range, List.length_erase_of_mem h] at this
  have := List.length_pos_of_mem h
  omega

/-- Arguments that are counted have different positions. -/
theorem nodup_keys (args : List Argument) :
    (((List.range' 0 args.length).zip args).map Prod.fst).Nodup := by
  rw [List.map_fst_zip (by rw [List.length_range'])]
  exact List.nodup_range'

/-- Arguments can be put in order if they are those at the first positions. -/
theorem inOrder?_eq_some_iff {read : List (Nat × Argument)} {args : List Argument}
    (distinct : (read.map Prod.fst).Nodup) :
    inOrder? read = some args ↔ read.Perm ((List.range' 0 args.length).zip args) := by
  rw [inOrder?, mapM_eq_some_iff, List.range_eq_range', List.forall₂_iff_zip, List.length_range']
  constructor
  · rintro ⟨size, found⟩
    rw [← size]
    have each : (List.range' 0 read.length).zip args ⊆ read := by
      rintro ⟨key, arg⟩ mem
      exact (lookup_eq_some_iff_mem distinct).mp (found mem)
    have nodup : ((List.range' 0 read.length).zip args).Nodup := by
      rw [size]
      exact (nodup_keys args).of_map
    refine ((List.subperm_of_subset nodup each).perm_of_length_le ?_).symm
    rw [List.length_zip, List.length_range', ← size, Nat.min_self]
  · intro same
    have size : read.length = args.length := by
      rw [same.length_eq, List.length_zip, List.length_range', Nat.min_self]
    refine ⟨size, fun {key arg} mem => (lookup_eq_some_iff_mem distinct).mpr ?_⟩
    rw [size] at mem
    exact same.mem_iff.mpr mem

/-- If nothing is left out, leaving out changes nothing. -/
theorem filterMap_of_mapM {α β : Type} {f : α → Option β} {as : List α} {bs : List β}
    (h : as.mapM f = some bs) : as.filterMap f = bs := by
  induction mapM_eq_some_iff.mp h with
  | nil => rfl
  | cons first rest ih => rw [List.filterMap_cons_some first, ih (mapM_eq_some_iff.mpr rest)]

/-- The arguments in order are those that are read at the three positions. -/
theorem filterMap_lookup_of_inOrder? {read : List (Nat × Argument)} {args : List Argument}
    (positions : ∀ key ∈ read.map Prod.fst, key < 3) (ordered : inOrder? read = some args) :
    ((List.range 3).filterMap fun position => read.lookup position) = args := by
  have noGap : ∀ key < read.length, key ∈ read.map Prod.fst := by
    intro key hkey
    obtain ⟨arg, -, found⟩ :=
      exists_right_of_mem (mapM_eq_some_iff.mp ordered) (List.mem_range.mpr hkey)
    exact lookup_isSome_iff.mp (Option.isSome_of_eq_some found)
  have few : read.length ≤ 3 := by
    by_contra many
    exact absurd (positions 3 (noGap 3 (by omega))) (by decide)
  have beyond : ∀ key ∈ List.range' read.length (3 - read.length), read.lookup key = none := by
    intro key hkey
    rw [← Option.not_isSome_iff_eq_none, lookup_isSome_iff]
    intro mem
    rw [← List.length_map Prod.fst] at noGap
    have := lt_length_of_mem noGap mem
    have := (List.mem_range'_1.mp hkey).1
    rw [List.length_map] at *
    omega
  have split : List.range 3 =
      List.range read.length ++ List.range' read.length (3 - read.length) := by
    have joined : List.range' 0 read.length ++ List.range' (0 + read.length) (3 - read.length) =
        List.range' 0 (read.length + (3 - read.length)) := List.range'_append_1
    rw [Nat.zero_add, Nat.add_sub_cancel' few] at joined
    rw [List.range_eq_range', List.range_eq_range', joined]
  rw [split, List.filterMap_append, filterMap_of_mapM ordered,
    List.filterMap_eq_nil_iff.mpr beyond, List.append_nil]

/-- If the positions have no gap, the arguments are what the elements by their names are read
as. -/
theorem forall₂_argumentElements {order : Nat} {es : List Element} {read : List (Nat × Argument)}
    {args : List Argument} (h : arguments order [] es = .ok read)
    (ordered : inOrder? read = some args) :
    List.Forall₂ (fun e arg => argument order (valueOf e "type") e.text = .ok arg)
      (argumentElements es) args := by
  obtain ⟨reads, -⟩ := arguments_nil_eq_ok_iff.mp h
  have names : List.Forall₂ (fun name position => argumentNames[position]? = some name)
      argumentNames (List.range 3) :=
    .cons rfl (.cons rfl (.cons rfl .nil))
  have positions : ∀ key ∈ read.map Prod.fst, key < 3 := by
    intro key hkey
    obtain ⟨new, hnew, rfl⟩ := List.mem_map.mp hkey
    obtain ⟨e, -, reads⟩ := exists_left_of_mem reads hnew
    obtain ⟨within, -⟩ := List.getElem?_eq_some_iff.mp (position?_eq_some_iff.mp reads.position)
    exact within
  rw [← filterMap_lookup_of_inOrder? positions ordered]
  exact List.rel_filterMap (fun _ _ hname => rel_find?_lookup reads hname) names

/-! ## Instructions -/

/-- What is read of the element of an instruction, after an instruction with order `previous`. -/
structure ReadsInstruction (previous : Nat) (e : Element) (i : Instruction) : Prop where
  name : e.name = "instruction"
  attributes : hasAttributes e ["order", "opcode"] [] = true
  order : order? (valueOf e "order") = some i.order
  later : previous < i.order
  opcode : Opcode.ofMnemonic? (trimmed (valueOf e "opcode")) = some i.opcode
  args : ∃ read, arguments i.order [] e.elements = .ok read ∧ inOrder? read = some i.args

/-- An element is read as an instruction exactly if it is one behind the previous order. -/
theorem instruction_eq_ok_iff {previous : Nat} {e : Element} {i : Instruction} :
    instruction previous e = .ok i ↔ ReadsInstruction previous e i := by
  constructor
  · intro h
    unfold instruction at h
    split at h
    · cases h
    · rename_i name
      split at h
      · cases h
      · rename_i attributes
        split at h
        · cases h
        · rename_i order horder
          split at h
          · cases h
          · rename_i later
            split at h
            · cases h
            · rename_i opcode hopcode
              split at h
              · cases h
              · rename_i read hread
                split at h
                · cases h
                · rename_i args hargs
                  obtain rfl := Except.ok.inj h
                  exact ⟨not_not.mp name, by simpa using attributes, horder, not_le.mp later,
                    hopcode, read, hread, hargs⟩
  · intro h
    obtain ⟨read, hread, hargs⟩ := h.args
    have later : ¬ i.order ≤ previous := not_le.mpr h.later
    simp only [instruction, h.name, h.attributes, h.order, later, h.opcode, hread, hargs,
      ne_eq, not_true_eq_false, Bool.not_true, Bool.false_eq_true, if_false]

/-- Each instruction comes after the one before it. -/
theorem instructions_cons_eq_ok_iff {previous : Nat} {e : Element} {es : List Element}
    {is : List Instruction} :
    instructions previous (e :: es) = .ok is ↔
      ∃ i rest, ReadsInstruction previous e i ∧ instructions i.order es = .ok rest ∧
        is = i :: rest := by
  rw [instructions]
  constructor
  · intro h
    split at h
    · cases h
    · rename_i i hi
      split at h
      · cases h
      · rename_i rest hrest
        exact ⟨i, rest, instruction_eq_ok_iff.mp hi, hrest, (Except.ok.inj h).symm⟩
  · rintro ⟨i, rest, hi, hrest, rfl⟩
    rw [instruction_eq_ok_iff.mpr hi]
    simp only [hrest]

theorem forall₂_of_instructions : ∀ {previous : Nat} {es : List Element} {is : List Instruction},
    instructions previous es = .ok is →
      List.Forall₂ (fun e i => ∃ previous, ReadsInstruction previous e i) es is
  | _, [], is, h => by
    obtain rfl := Except.ok.inj h
    exact .nil
  | previous, e :: es, is, h => by
    obtain ⟨i, rest, first, hrest, rfl⟩ := instructions_cons_eq_ok_iff.mp h
    exact .cons ⟨previous, first⟩ (forall₂_of_instructions hrest)

/-! ## Programs -/

/-- What is read of the root of a document. -/
structure ReadsProgram (root : Element) (p : Program) : Prop where
  name : root.name = "program"
  attributes : hasAttributes root ["language"] ["name", "description"] = true
  language : sameIgnoringCase (valueOf root "language").toList language.toList = true
  instructions : instructions 0 root.elements = .ok p.instructions
  fits : ∀ i ∈ p.instructions, i.Fits

end Ippcode.Document

namespace Ippcode

open Ippcode.Document

/-- A program has no misfit if all its instructions fit. -/
theorem Program.misfit?_eq_none_iff {p : Program} :
    p.misfit? = none ↔ ∀ i ∈ p.instructions, i.Fits := by
  rw [Program.misfit?, List.findSome?_eq_none_iff]
  simp only [Option.map_eq_none_iff, Instruction.misfit?_eq_none_iff]

/-- A tree is read as a program exactly if it is one. -/
theorem Program.ofElement_eq_ok_iff {root : Xml.Element} {p : Program} :
    Program.ofElement root = .ok p ↔ ReadsProgram root p := by
  constructor
  · intro h
    unfold Program.ofElement at h
    split at h
    · cases h
    · rename_i name
      split at h
      · cases h
      · rename_i attributes
        simp only at h
        split at h
        · cases h
        · rename_i language
          split at h
          · cases h
          · rename_i is his
            split at h
            · cases h
            · rename_i fits
              obtain rfl := Except.ok.inj h
              exact ⟨not_not.mp name, by simpa using attributes, by simpa using language, his,
                misfit?_eq_none_iff.mp fits⟩
  · intro h
    have fits : Program.misfit? ⟨p.instructions⟩ = none := misfit?_eq_none_iff.mpr h.fits
    simp only [Program.ofElement, h.name, h.attributes, h.language, h.instructions, fits, ne_eq,
      not_true_eq_false, Bool.not_true, Bool.false_eq_true, if_false]

end Ippcode
