import Mathlib.Computability.Language
import Xv6.Params

/-! # The regular expressions of `grep`

    `match`, `matchhere` and `matchstar` of `grep.c`. A string is the bytes
    before its zero.

    - `reading`: the items that a pattern consists of, and whether it ends in an
      anchor
    - `Pattern.Matches`: what it is for a text to contain a match
    - `matchRe_iff`: `match` decides it
-/

open Computability

namespace Xv6.User

variable {text : List Byte}

/-- `'^'` -/
def caret : Byte := 94

/-- `'.'` -/
def dot : Byte := 46

/-- `'*'` -/
def asterisk : Byte := 42

/-- `'$'` -/
def dollar : Byte := 36

/-- `matchhere` is the match of the pattern behind the `'*'`. -/
def matchstar (matchhere : List Byte → Bool) (c : Byte) : List Byte → Bool
  | [] => matchhere []
  | t :: text =>
    matchhere (t :: text) || ((t == c || c == dot) && matchstar matchhere c text)

/-- The last `if` of `matchhere`, with the match of the rest. -/
def matchone (matchhere : List Byte → Bool) (c : Byte) : List Byte → Bool
  | [] => false
  | t :: text => (c == dot || c == t) && matchhere text

/-- Search for the pattern at the beginning of the text. -/
def matchhere : List Byte → List Byte → Bool
  | [], _ => true
  | c :: d :: re, text =>
    if d = asterisk then matchstar (matchhere re) c text
    else matchone (matchhere (d :: re)) c text
  | [c], text => if c = dollar then text.isEmpty else matchone (matchhere []) c text

/-- The loop of `match`, which looks at the empty string as well. -/
def matchLoop (re : List Byte) : List Byte → Bool
  | [] => matchhere re []
  | t :: text => matchhere re (t :: text) || matchLoop re text

/-- `match`. -/
def matchRe (re text : List Byte) : Bool :=
  match re with
  | [] => matchLoop [] text
  | c :: re => if c = caret then matchhere re text else matchLoop (c :: re) text

/-! ### What a pattern stands for -/

inductive Item where
  | one (c : Byte)
  | star (c : Byte)

/-- The strings of one character that `c` stands for. -/
def single (c : Byte) : Language Byte := {w | ∃ x, w = [x] ∧ (c = dot ∨ x = c)}

def Item.language : Item → Language Byte
  | one c => single c
  | star c => (single c)∗

/-- The items of a pattern behind its `'^'`, and whether a `'$'` ends it. A `'*'`
    belongs to the character before it, if there is one. -/
def reading : List Byte → List Item × Bool
  | [] => ([], false)
  | c :: d :: re =>
    if d = asterisk then (.star c :: (reading re).1, (reading re).2)
    else (.one c :: (reading (d :: re)).1, (reading (d :: re)).2)
  | [c] => if c = dollar then ([], true) else ([.one c], false)

structure Pattern where
  atStart : Bool
  items : List Item
  atEnd : Bool

def Pattern.read : List Byte → Pattern
  | [] => ⟨false, [], false⟩
  | c :: re =>
    if c = caret then ⟨true, (reading re).1, (reading re).2⟩
    else ⟨false, (reading (c :: re)).1, (reading (c :: re)).2⟩

def language (items : List Item) : Language Byte := (items.map Item.language).prod

/-- A part of the text is one string for each item, put together. -/
def Pattern.Matches (p : Pattern) (text : List Byte) : Prop :=
  ∃ before part after, text = before ++ part ++ after ∧ part ∈ language p.items ∧
    (p.atStart = true → before = []) ∧ (p.atEnd = true → after = [])

/-! ### `match` decides it -/

/-- The same for a part at the beginning of the text. -/
def MatchesHere (r : List Item × Bool) (text : List Byte) : Prop :=
  ∃ part after, text = part ++ after ∧ part ∈ language r.1 ∧ (r.2 = true → after = [])

theorem mem_star_single {c : Byte} {w : List Byte} :
    w ∈ (single c)∗ ↔ ∀ x ∈ w, c = dot ∨ x = c := by
  rw [Language.mem_kstar]
  constructor
  · rintro ⟨parts, rfl, hparts⟩ x hx
    obtain ⟨part, hpart, hmem⟩ := List.mem_flatten.mp hx
    obtain ⟨y, rfl, hy⟩ := hparts part hpart
    rw [List.mem_singleton.mp hmem]
    exact hy
  · intro h
    refine ⟨w.map (fun x => [x]), by rw [← List.flatMap_def, List.flatMap_singleton'], fun part hpart => ?_⟩
    obtain ⟨x, hx, rfl⟩ := List.mem_map.mp hpart
    exact ⟨x, rfl, h x hx⟩

theorem matchesHere_nil : MatchesHere ([], false) text :=
  ⟨[], text, rfl, Language.nil_mem_one, fun h => by cases h⟩

theorem matchesHere_end : MatchesHere ([], true) text ↔ text = [] := by
  constructor
  · rintro ⟨part, after, rfl, hpart, hend⟩
    rw [(Language.mem_one part).mp hpart, hend rfl]
    rfl
  · rintro rfl
    exact ⟨[], [], rfl, Language.nil_mem_one, fun _ => rfl⟩

/-- The first item takes a beginning of the text, the others go on behind it. -/
theorem matchesHere_cons {i : Item} {items : List Item} {e : Bool} :
    MatchesHere (i :: items, e) text ↔
      ∃ part after, text = part ++ after ∧ part ∈ i.language ∧ MatchesHere (items, e) after := by
  constructor
  · rintro ⟨part, after, rfl, hpart, hend⟩
    obtain ⟨first, hfirst, rest, hrest, rfl⟩ := Language.mem_mul.mp hpart
    exact ⟨first, rest ++ after, List.append_assoc .., hfirst, rest, after, rfl, hrest, hend⟩
  · rintro ⟨first, _, rfl, hfirst, rest, after, rfl, hrest, hend⟩
    exact ⟨first ++ rest, after, (List.append_assoc ..).symm,
      Language.mem_mul.mpr ⟨first, hfirst, rest, hrest, rfl⟩, hend⟩

theorem matchone_iff {here : List Byte → Bool} {c : Byte} {items : List Item} {e : Bool}
    (h : ∀ rest, here rest = true ↔ MatchesHere (items, e) rest) :
    matchone here c text = true ↔ MatchesHere (.one c :: items, e) text := by
  rw [matchesHere_cons]
  cases text with
  | nil =>
    refine iff_of_false (by simp [matchone]) ?_
    rintro ⟨_, _, heq, ⟨t, rfl, _⟩, _⟩
    cases heq
  | cons t text =>
    simp only [matchone, Bool.and_eq_true, Bool.or_eq_true, beq_iff_eq, h]
    constructor
    · rintro ⟨ht, hrest⟩
      exact ⟨[t], text, rfl, ⟨t, rfl, ht.imp_right Eq.symm⟩, hrest⟩
    · rintro ⟨_, _, heq, ⟨t, rfl, ht⟩, hrest⟩
      cases heq
      exact ⟨ht.imp_right Eq.symm, hrest⟩

theorem matchstar_iff (here : List Byte → Bool) (c : Byte) (text : List Byte) :
    matchstar here c text = true ↔
      ∃ part after, text = part ++ after ∧ part ∈ (single c)∗ ∧ here after = true := by
  induction text with
  | nil =>
    constructor
    · intro h
      exact ⟨[], [], rfl, Language.nil_mem_kstar _, h⟩
    · rintro ⟨part, after, heq, _, h⟩
      rw [(List.nil_eq_append_iff.mp heq).2] at h
      exact h
  | cons t text ih =>
    simp only [matchstar, Bool.or_eq_true, Bool.and_eq_true, beq_iff_eq, ih]
    constructor
    · rintro (h | ⟨ht, part, after, rfl, hpart, h⟩)
      · exact ⟨[], t :: text, rfl, Language.nil_mem_kstar _, h⟩
      · refine ⟨t :: part, after, rfl, mem_star_single.mpr (fun x hx => ?_), h⟩
        rcases List.mem_cons.mp hx with rfl | hx
        · exact ht.symm
        · exact mem_star_single.mp hpart x hx
    · rintro ⟨part, after, heq, hpart, h⟩
      cases part with
      | nil =>
        rw [heq]
        exact Or.inl h
      | cons x part =>
        cases heq
        have hall := mem_star_single.mp hpart
        refine Or.inr ⟨(hall t List.mem_cons_self).symm, part, after, rfl, ?_, h⟩
        exact mem_star_single.mpr (fun y hy => hall y (List.mem_cons_of_mem t hy))

theorem matchhere_iff (re : List Byte) : ∀ text,
    matchhere re text = true ↔ MatchesHere (reading re) text := by
  fun_induction reading re with
  | case1 => exact fun text => iff_of_true rfl matchesHere_nil
  | case2 c re ih =>
    -- a `'*'` follows
    intro text
    rw [matchhere, if_pos rfl, matchstar_iff, matchesHere_cons]
    simp only [ih]
    rfl
  | case3 c d re hd ih =>
    intro text
    rw [matchhere, if_neg hd]
    exact matchone_iff ih
  | case4 =>
    -- the `'$'` at the end
    intro text
    rw [matchhere, if_pos rfl, matchesHere_end, List.isEmpty_iff]
  | case5 c hc =>
    intro text
    rw [matchhere, if_neg hc]
    exact matchone_iff (fun _ => iff_of_true rfl matchesHere_nil)

theorem matchLoop_iff (re text : List Byte) :
    matchLoop re text = true ↔ ∃ before rest, text = before ++ rest ∧ MatchesHere (reading re) rest := by
  induction text with
  | nil =>
    rw [matchLoop, matchhere_iff]
    constructor
    · intro h
      exact ⟨[], [], rfl, h⟩
    · rintro ⟨before, rest, heq, h⟩
      rw [(List.nil_eq_append_iff.mp heq).2] at h
      exact h
  | cons t text ih =>
    rw [matchLoop, Bool.or_eq_true, matchhere_iff, ih]
    constructor
    · rintro (h | ⟨before, rest, rfl, h⟩)
      · exact ⟨[], t :: text, rfl, h⟩
      · exact ⟨t :: before, rest, rfl, h⟩
    · rintro ⟨before, rest, heq, h⟩
      cases before with
      | nil =>
        rw [heq]
        exact Or.inl h
      | cons b before =>
        cases heq
        exact Or.inr ⟨before, rest, rfl, h⟩

/-- **The matcher.** `match` returns 1 just if the text contains a match. -/
theorem matchRe_iff (re text : List Byte) :
    matchRe re text = true ↔ (Pattern.read re).Matches text := by
  have hfree : ∀ re, matchLoop re text = true ↔
      (⟨false, (reading re).1, (reading re).2⟩ : Pattern).Matches text := by
    intro re
    rw [matchLoop_iff]
    constructor
    · rintro ⟨before, _, rfl, part, after, rfl, hpart, hend⟩
      exact ⟨before, part, after, (List.append_assoc ..).symm, hpart, nofun, hend⟩
    · rintro ⟨before, part, after, rfl, hpart, _, hend⟩
      exact ⟨before, part ++ after, List.append_assoc .., part, after, rfl, hpart, hend⟩
  unfold matchRe Pattern.read
  cases re with
  | nil => exact hfree []
  | cons c re =>
    dsimp only
    split
    · rw [matchhere_iff]
      constructor
      · rintro ⟨part, after, rfl, hpart, hend⟩
        exact ⟨[], part, after, rfl, hpart, fun _ => rfl, hend⟩
      · rintro ⟨before, part, after, rfl, hpart, hstart, hend⟩
        rw [hstart rfl]
        exact ⟨part, after, rfl, hpart, hend⟩
    · exact hfree (c :: re)

end Xv6.User
