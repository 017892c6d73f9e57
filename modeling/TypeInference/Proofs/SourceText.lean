import Mathlib
import TypeInference.Tree.Build
import TypeInference.Tree.Printer

/-! # Source text read back

Texts of names, operators, selections and calls are read with the table of precedences: a higher one binds tighter,
binary operators are left associative, operators before an operand bind tighter than binary ones, and selections and
calls tighter still (`Phrase.read`). Trees are compared as phrases, without anchors and slots (`Expr.Shows`). What is
printed is read as the phrase with the operators before an owner or a callee moved before the whole selection or call
(`Phrase.normal`), because they are printed without parentheses. So operators are read back as they were
(`operators_read_back`), and texts are the same exactly if these phrases are (`sources_alike_iff`). -/

namespace TypeInference

open List

/-! ### Phrases -/

def binaryOperators : List String := ["or", "and", "==", "!=", "<", ">", "<=", ">=", "+", "-", "*", "/"]

def unaryOperators : List String := ["-", "not"]

/-- The characters that end a name: blanks, and those of punctuation and operators. -/
def delimiters : List Char := [' ', '(', ')', ',', '.', '+', '-', '*', '/', '<', '>', '=', '!']

def isNameChar (c : Char) : Bool := !delimiters.contains c

/-- A name that is no operator and no number. -/
structure Plain (name : String) : Prop where
  nonempty : name.toList ≠ []
  chars : ∀ c ∈ name.toList, isNameChar c = true
  notOperator : name ∉ ["and", "or", "not"]
  notNumber : name.toInt? = none

def Member.Plain : Member → Prop
  | .label l => TypeInference.Plain l
  | .index _ => True

/-- An expression of names, operators, selections and calls, without its anchors. -/
inductive Phrase where
  | name (n : String)
  | binary (op : String) (left right : Phrase)
  | unary (op : String) (operand : Phrase)
  | select (owner : Phrase) (member : Member)
  | call (callee : Phrase) (args : List Phrase)

mutual
/-- The expression is built as the phrase shows, from plain names, the operators of the table and positional
arguments. -/
inductive Expr.Shows : Expr → Phrase → Prop where
  | name {i : Ident} (h : Plain i.name) : Expr.Shows (.ident i) (.name i.name)
  | binary {mark : Mark} {op : Ident} {l r : Expr} {f f' : Phrase} (hop : op.name ∈ binaryOperators)
      (hl : Expr.Shows l f) (hr : Expr.Shows r f') : Expr.Shows (.binary mark op l r) (.binary op.name f f')
  | unary {mark : Mark} {op : Ident} {x : Expr} {f : Phrase} (hop : op.name ∈ unaryOperators) (hx : Expr.Shows x f) :
      Expr.Shows (.unary mark op x) (.unary op.name f)
  | select {mark : Mark} {owner : Expr} {m : Member} {f : Phrase} (hm : m.Plain) (ho : Expr.Shows owner f) :
      Expr.Shows (.select mark owner m) (.select f m)
  | call {mark : Mark} {callee : Expr} {args : List (Option Labelled)} {f : Phrase} {fs : List Phrase}
      (hc : Expr.Shows callee f) (hargs : Labelled.ShowAll args fs) : Expr.Shows (.call mark callee args) (.call f fs)
inductive Labelled.ShowAll : List (Option Labelled) → List Phrase → Prop where
  | nil : Labelled.ShowAll [] []
  | cons {mark : Mark} {value : Expr} {rest : List (Option Labelled)} {f : Phrase} {fs : List Phrase}
      (h : Expr.Shows value f) (hrest : Labelled.ShowAll rest fs) :
      Labelled.ShowAll (some ⟨mark, "", value⟩ :: rest) (f :: fs)
end

namespace Phrase

mutual
/-- The operators before a phrase that is printed next to a selection or call, the outermost first. -/
def before : Phrase → List String
  | .unary op x => op :: x.before
  | .select owner _ => owner.before
  | .call callee _ => callee.before
  | _ => []
/-- What these operators are read to apply to. -/
def core : Phrase → Phrase
  | .name n => .name n
  | .binary op l r => .binary op (l.before.foldr unary l.core) (r.before.foldr unary r.core)
  | .unary _ x => x.core
  | .select owner m => .select owner.core m
  | .call callee args => .call callee.core (normalAll args)
def normalAll : List Phrase → List Phrase
  | [] => []
  | f :: fs => f.before.foldr unary f.core :: normalAll fs
end

/-- The phrase with the operators of owners and callees before the whole selection or call. -/
def normal (f : Phrase) : Phrase := f.before.foldr unary f.core

/-- Whether a binary operator is printed in parentheses. -/
def enclosed (op : String) (outer : Nat) (right : Bool) : Bool :=
  precedence op < outer || (precedence op == outer && right)

mutual
/-- The text of a phrase below an operator of precedence `outer`, on its right side if `right` holds. -/
def chars (outer : Nat) (right : Bool) : Phrase → List Char
  | .name n => n.toList
  | .binary op l r =>
    let text := l.chars (precedence op) false ++ ' ' :: op.toList ++ ' ' :: r.chars (precedence op) true
    if enclosed op outer right then '(' :: text ++ [')'] else text
  | .unary op x => op.toList ++ (if op = "not" then [' '] else []) ++ x.chars prefixPrecedence false
  | .select owner m => owner.chars prefixPrecedence false ++ '.' :: m.text.toList
  | .call callee args => callee.chars prefixPrecedence false ++ '(' :: [',', ' '].intercalate (charsAll args) ++ [')']
def charsAll : List Phrase → List (List Char)
  | [] => []
  | f :: fs => f.chars 0 false :: charsAll fs
end

/-- Built with operators alone. -/
def Operators : Phrase → Prop
  | .name _ => True
  | .binary _ l r => l.Operators ∧ r.Operators
  | .unary _ x => x.Operators
  | _ => False

end Phrase

/-! ### Printing -/

mutual
theorem Expr.Shows.sourceAt {e : Expr} {f : Phrase} : e.Shows f → ∀ (level outer : Nat) (right : Bool),
    ∃ text, e.sourceAt level outer right = .ok text ∧ text.toList = f.chars outer right
  | .name _, _, _, _ => ⟨_, rfl, rfl⟩
  | @Expr.Shows.binary mark op l r f f' _ hl hr, level, outer, right => by
    obtain ⟨a, ha, hca⟩ := hl.sourceAt level (precedence op.name) false
    obtain ⟨b, hb, hcb⟩ := hr.sourceAt level (precedence op.name) true
    refine ⟨_, by rw [Expr.sourceAt, ha, hb]; rfl, ?_⟩
    rw [Phrase.chars, ← hca, ← hcb]
    change (parenthesize (Phrase.enclosed op.name outer right) _).toList = _
    cases Phrase.enclosed op.name outer right <;> simp [parenthesize]
  | .unary _ hx, level, outer, right => by
    obtain ⟨a, ha, hca⟩ := hx.sourceAt level prefixPrecedence false
    refine ⟨_, by rw [Expr.sourceAt, ha]; rfl, ?_⟩
    rw [Phrase.chars, ← hca]
    split <;> simp
  | .select _ ho, level, outer, right => by
    obtain ⟨a, ha, hca⟩ := ho.sourceAt level prefixPrecedence false
    refine ⟨_, by rw [Expr.sourceAt, ha]; rfl, ?_⟩
    simp [Phrase.chars, ← hca]
  | .call hc hargs, level, outer, right => by
    obtain ⟨a, ha, hca⟩ := hc.sourceAt level prefixPrecedence false
    obtain ⟨texts, ht, hct⟩ := hargs.sources level
    refine ⟨_, by rw [Expr.sourceAt, ha, ht]; rfl, ?_⟩
    simp [Phrase.chars, ← hca, ← hct, String.toList_intercalate]
theorem Labelled.ShowAll.sources {args : List (Option Labelled)} {fs : List Phrase} :
    Labelled.ShowAll args fs → ∀ level : Nat, ∃ texts, Labelled.sources level args = .ok texts ∧
    texts.map String.toList = Phrase.charsAll fs
  | .nil, _ => ⟨[], rfl, rfl⟩
  | .cons h hrest, level => by
    obtain ⟨a, ha, hca⟩ := h.sourceAt level 0 false
    obtain ⟨texts, ht, hct⟩ := hrest.sources level
    exact ⟨a :: texts, by rw [Labelled.sources, ha, ht]; rfl, by simp [Phrase.charsAll, hca, hct]⟩
end

/-! ### Reading -/

inductive Lexeme where
  | name (n : String)
  | operator (op : String)
  | member (m : Member)
  | opening
  | closing
  | comma

/-- Characters that belong together. -/
inductive Run where
  | word
  | comparison
  | member

namespace Run

def accepts : Run → Char → Bool
  | .word, c => isNameChar c
  | .comparison, c => ['<', '>', '=', '!'].contains c
  | .member, c => isNameChar c || c == '-'

def lexeme (r : Run) (text : String) : Lexeme :=
  match r with
  | .word => if text ∈ ["and", "or", "not"] then .operator text else .name text
  | .comparison => .operator text
  | .member => .member (match text.toInt? with | some i => .index i | none => .label text)

end Run

/-- What a character gives at once, and the run that starts with it. -/
def Lexeme.start (c : Char) : List Lexeme × Option (Run × List Char) :=
  if c = ' ' then ([], none)
  else if c = '(' then ([.opening], none)
  else if c = ')' then ([.closing], none)
  else if c = ',' then ([.comma], none)
  else if c = '.' then ([], some (.member, []))
  else if isNameChar c then ([], some (.word, [c]))
  else if Run.comparison.accepts c then ([], some (.comparison, [c]))
  else ([.operator (String.ofList [c])], none)

/-- The lexemes of a text, of which a run may already be under way. -/
def lexemes : Option (Run × List Char) → List Char → List Lexeme
  | none, [] => []
  | some (r, w), [] => [r.lexeme (String.ofList w)]
  | none, c :: cs => (Lexeme.start c).1 ++ lexemes (Lexeme.start c).2 cs
  | some (r, w), c :: cs =>
    if r.accepts c then lexemes (some (r, w ++ [c])) cs
    else r.lexeme (String.ofList w) :: (Lexeme.start c).1 ++ lexemes (Lexeme.start c).2 cs

/-- What waits for an operand to be complete. -/
inductive Frame where
  | unary (op : String)
  | binary (left : Phrase) (op : String)
  | parenthesis
  | arguments (callee : Phrase) (args : List Phrase)

namespace Phrase

/-- Applies the operators that bind at least as tight as an operator of precedence `p`. -/
def reduce (p : Nat) : List Frame → Phrase → List Frame × Phrase
  | .unary op :: fs, x => reduce p fs (.unary op x)
  | .binary l op :: fs, x => if p ≤ precedence op then reduce p fs (.binary op l x) else (.binary l op :: fs, x)
  | fs, x => (fs, x)

/-- Reads lexemes with the frames that wait, the innermost first, after the phrase if one has just been read. -/
def parse : List Frame → Option Phrase → List Lexeme → Option Phrase
  | fs, none, .name n :: ls => parse fs (some (.name n)) ls
  | fs, none, .operator op :: ls => if op ∈ unaryOperators then parse (.unary op :: fs) none ls else none
  | fs, none, .opening :: ls => parse (.parenthesis :: fs) none ls
  | .arguments callee [] :: fs, none, .closing :: ls => parse fs (some (.call callee [])) ls
  | fs, some x, .operator op :: ls =>
    if op ∈ binaryOperators then parse (.binary (reduce (precedence op) fs x).2 op :: (reduce (precedence op) fs x).1)
      none ls else none
  | fs, some x, .member m :: ls => parse fs (some (.select x m)) ls
  | fs, some x, .opening :: ls => parse (.arguments x [] :: fs) none ls
  | fs, some x, .comma :: ls =>
    match reduce 0 fs x with
    | (.arguments callee args :: fs, x) => parse (.arguments callee (args ++ [x]) :: fs) none ls
    | _ => none
  | fs, some x, .closing :: ls =>
    match reduce 0 fs x with
    | (.parenthesis :: fs, x) => parse fs (some x) ls
    | (.arguments callee args :: fs, x) => parse fs (some (.call callee (args ++ [x]))) ls
    | _ => none
  | fs, some x, [] =>
    match reduce 0 fs x with
    | ([], x) => some x
    | _ => none
  | _, _, _ => none

def read (text : String) : Option Phrase := parse [] none (lexemes none text.toList)

end Phrase

/-! ### Lexemes of printed text -/

/-- The text is at its end, or goes on with a character that ends every run. -/
def Stops (rest : List Char) : Prop := ∀ c ∈ rest.head?, c ∈ [' ', '(', ')', ',', '.']

variable {rest : List Char}

theorem stops_cons {c : Char} (h : c ∈ [' ', '(', ')', ',', '.'] := by decide) : Stops (c :: rest) := by
  intro d hd
  obtain rfl : c = d := by simpa using hd
  exact h

theorem Run.not_accepts (r : Run) {c : Char} (hc : c ∈ [' ', '(', ')', ',', '.']) : r.accepts c = false := by
  have hall : [' ', '(', ')', ',', '.'].all (fun c => !r.accepts c) = true := by cases r <;> decide
  simpa using all_eq_true.mp hall c hc

theorem lexemes_run (r : Run) (w : List Char) (hw : ∀ c ∈ w, r.accepts c = true) (hrest : Stops rest) (v : List Char) :
    lexemes (some (r, v)) (w ++ rest) = r.lexeme (String.ofList (v ++ w)) :: lexemes none rest := by
  induction w generalizing v with
  | nil =>
    cases rest with
    | nil => simp [lexemes]
    | cons c cs => simp [lexemes, r.not_accepts (hrest c rfl)]
  | cons c w ih =>
    obtain ⟨hc, hw⟩ := forall_mem_cons.mp hw
    rw [cons_append, lexemes, if_pos hc, ih hw]
    simp

theorem lexemes_name {n : String} (hn : Plain n) (hrest : Stops rest) :
    lexemes none (n.toList ++ rest) = .name n :: lexemes none rest := by
  obtain ⟨c, w, hcw⟩ := exists_cons_of_ne_nil hn.nonempty
  obtain ⟨hc, hw⟩ := forall_mem_cons.mp (hcw ▸ hn.chars)
  have hstart : Lexeme.start c = ([], some (.word, [c])) := by
    have hne : ∀ d, isNameChar d = false → c ≠ d := fun d hd heq => by simp [heq, hd] at hc
    simp [Lexeme.start, hc, hne ' ' rfl, hne '(' rfl, hne ')' rfl, hne ',' rfl, hne '.' rfl]
  rw [hcw, cons_append, lexemes, hstart, nil_append, lexemes_run .word w hw hrest, singleton_append, ← hcw,
    String.ofList_toList, Run.lexeme, if_neg hn.notOperator]

theorem Member.Plain.accepts {m : Member} (hm : m.Plain) : ∀ c ∈ m.text.toList, Run.member.accepts c = true := by
  have hdelimiters : delimiters.all (fun c => !c.isDigit) = true := by decide
  have hdigit : ∀ c : Char, c.isDigit = true → isNameChar c = true := fun c hc => by
    by_contra hnot
    have hc' := all_eq_true.mp hdelimiters c (by simpa [isNameChar] using hnot)
    simp [hc] at hc'
  have hnat : ∀ n : Nat, ∀ c ∈ n.repr.toList, isNameChar c = true := fun n c hc => by
    rw [Nat.toList_repr] at hc
    exact hdigit c (Nat.isDigit_of_mem_toDigits (by decide) (by decide) hc)
  intro c hc
  simp only [Run.accepts, Bool.or_eq_true, beq_iff_eq]
  cases m with
  | label l => exact .inl (hm.chars c hc)
  | index i =>
    cases i with
    | ofNat n => exact .inl (hnat n c hc)
    | negSucc n =>
      rcases (by simpa [Member.text, toString, Int.repr] using hc : c = '-' ∨ c ∈ (n + 1).repr.toList) with rfl | hc
      · exact .inr rfl
      · exact .inl (hnat _ c hc)

theorem lexemes_member {m : Member} (hm : m.Plain) (hrest : Stops rest) :
    lexemes none ('.' :: (m.text.toList ++ rest)) = .member m :: lexemes none rest := by
  have hread : (match m.text.toInt? with | some i => Member.index i | none => .label m.text) = m := by
    cases m with
    | label l => rw [show (Member.label l).text = l from rfl, hm.notNumber]
    | index i => rw [show (Member.index i).text = i.repr from rfl, Int.toInt?_repr]
  have hstart : lexemes none ('.' :: (m.text.toList ++ rest)) = lexemes (some (.member, [])) (m.text.toList ++ rest) :=
    rfl
  rw [hstart, lexemes_run .member _ hm.accepts hrest, nil_append, String.ofList_toList, Run.lexeme, hread]

theorem lexemes_binary {op : String} (hop : op ∈ binaryOperators) :
    lexemes none (' ' :: (op.toList ++ ' ' :: rest)) = .operator op :: lexemes none rest := by
  simp only [binaryOperators, mem_cons, not_mem_nil, or_false] at hop
  rcases hop with rfl | rfl | rfl | rfl | rfl | rfl | rfl | rfl | rfl | rfl | rfl | rfl <;> rfl

theorem lexemes_unary {op : String} (hop : op ∈ unaryOperators) :
    lexemes none (op.toList ++ (if op = "not" then [' '] else []) ++ rest) = .operator op :: lexemes none rest := by
  simp only [unaryOperators, mem_cons, not_mem_nil, or_false] at hop
  rcases hop with rfl | rfl <;> rfl

/-! ### Printed text is read as the normal phrase -/

namespace Phrase

variable {fs fs' : List Frame} {ls : List Lexeme} {p q : Nat} {x x' : Phrase}

/-- No frame is complete when an operator of precedence `p` comes. -/
def Holds (p : Nat) : List Frame → Prop
  | .unary _ :: _ => False
  | .binary _ op :: _ => precedence op < p
  | _ => True

/-- The lexemes do not take the right operand of an operator of precedence `p` away. -/
def Ends (p : Nat) : List Lexeme → Prop
  | .operator op :: _ => precedence op ≤ p
  | .member _ :: _ => False
  | .opening :: _ => False
  | _ => True

theorem Holds.mono (h : Holds p fs) (hpq : p ≤ q) : Holds q fs := by
  unfold Holds at h ⊢
  split at h
  · exact h
  · exact h.trans_le hpq
  · trivial

theorem Ends.mono (h : Ends p ls) (hpq : p ≤ q) : Ends q ls := by
  unfold Ends at h ⊢
  split at h
  · exact h.trans hpq
  · exact h
  · exact h
  · trivial

theorem reduce_of_holds (h : Holds p fs) (x : Phrase) : reduce p fs x = (fs, x) := by
  unfold Holds at h
  unfold reduce
  split at h
  · exact h.elim
  · exact if_neg (Nat.not_le.mpr h)
  · next hunary hbinary =>
    split
    · exact absurd rfl (hunary _ _)
    · exact absurd rfl (hbinary _ _ _)
    · rfl

/-- The frames after operators before an operand. -/
def push (ops : List String) (fs : List Frame) : List Frame := ops.foldl (fun fs op => .unary op :: fs) fs

theorem reduce_push (p : Nat) (ops : List String) (fs : List Frame) (x : Phrase) :
    reduce p (push ops fs) x = reduce p fs (ops.foldr unary x) := by
  induction ops generalizing fs with
  | nil => rfl
  | cons op ops ih => exact ih _

theorem parse_congr (hls : Ends p ls) (h : ∀ q ≤ p, reduce q fs x = reduce q fs' x') :
    parse fs (some x) ls = parse fs' (some x') ls := by
  cases ls with
  | nil => rw [parse, parse, h 0 p.zero_le]
  | cons l ls =>
    cases l with
    | operator op => rw [parse, parse, h _ hls]
    | comma => rw [parse, parse, h 0 p.zero_le]
    | closing => rw [parse, parse, h 0 p.zero_le]
    | name n => rfl
    | member m => exact hls.elim
    | opening => exact hls.elim

/-- Every binary operator that is printed without parentheses in the place is read as it was printed. -/
def Fits (outer : Nat) (right : Bool) (fs : List Frame) (ls : List Lexeme) : Prop :=
  ∀ op ∈ binaryOperators, enclosed op outer right = false → Holds (precedence op) fs ∧ Ends (precedence op) ls

theorem fits_enclosed : Fits prefixPrecedence false fs ls := by
  have hall : binaryOperators.all (fun op => enclosed op prefixPrecedence false) = true := by decide
  intro op hop h
  simp [all_eq_true.mp hall op hop] at h

end Phrase

mutual
theorem Expr.Shows.parse_chars {e : Expr} {f : Phrase} : e.Shows f →
    ∀ {outer : Nat} {right : Bool} {fs : List Frame} {rest : List Char},
    Stops rest → Phrase.Fits outer right fs (lexemes none rest) →
    Phrase.parse fs none (lexemes none (f.chars outer right ++ rest)) =
      Phrase.parse (Phrase.push f.before fs) (some f.core) (lexemes none rest)
  | .name hn, _, _, fs, rest, hrest, _ => by
    rw [Phrase.chars, lexemes_name hn hrest]
    rfl
  | .unary hop hx, _, _, fs, rest, hrest, _ => by
    rw [Phrase.chars, append_assoc, lexemes_unary hop, Phrase.parse, if_pos hop]
    exact hx.parse_chars hrest Phrase.fits_enclosed
  | .select hm ho, _, _, fs, rest, hrest, _ => by
    rw [Phrase.chars, append_assoc, cons_append, ho.parse_chars stops_cons Phrase.fits_enclosed,
      lexemes_member hm hrest]
    rfl
  | .call hc hargs, _, _, fs, rest, hrest, _ => by
    rw [Phrase.chars, append_assoc, append_assoc, cons_append, hc.parse_chars stops_cons Phrase.fits_enclosed]
    exact hargs.parse_chars (.inr rfl)
  | @Expr.Shows.binary _ op l r f f' hop hl hr, outer, right, fs, rest, hrest, hfits => by
    have hopen : ∀ (fs : List Frame) (rest : List Char), Stops rest → Phrase.Holds (precedence op.name) fs →
        Phrase.Ends (precedence op.name) (lexemes none rest) →
        Phrase.parse fs none (lexemes none (f.chars (precedence op.name) false ++ ' ' :: op.name.toList ++
          ' ' :: f'.chars (precedence op.name) true ++ rest)) =
        Phrase.parse fs (some (.binary op.name f.normal f'.normal)) (lexemes none rest) := by
      intro fs rest hrest hholds hends
      have hleft : Phrase.Fits (precedence op.name) false fs
          (lexemes none (' ' :: (op.name.toList ++ ' ' :: (f'.chars (precedence op.name) true ++ rest)))) := by
        intro op' _ h
        have hle : precedence op.name ≤ precedence op' := by simpa [Phrase.enclosed] using h
        rw [lexemes_binary hop]
        exact ⟨hholds.mono hle, hle⟩
      have hright : Phrase.Fits (precedence op.name) true (.binary f.normal op.name :: fs) (lexemes none rest) := by
        intro op' _ h
        have hlt : precedence op.name < precedence op' := by
          simp [Phrase.enclosed] at h
          omega
        exact ⟨hlt, hends.mono hlt.le⟩
      simp only [append_assoc, cons_append]
      rw [hl.parse_chars stops_cons hleft, lexemes_binary hop, Phrase.parse, if_pos hop, Phrase.reduce_push,
        Phrase.reduce_of_holds hholds]
      refine (hr.parse_chars hrest hright).trans (Phrase.parse_congr hends fun q hq => ?_)
      rw [Phrase.reduce_push, Phrase.reduce, if_pos hq]
      rfl
    rw [Phrase.chars]
    cases henclosed : Phrase.enclosed op.name outer right with
    | true =>
      have hbody := hopen (.parenthesis :: fs) (')' :: rest) stops_cons trivial trivial
      simp only [if_true, cons_append, append_assoc] at hbody ⊢
      exact hbody
    | false =>
      obtain ⟨hholds, hends⟩ := hfits _ hop henclosed
      exact hopen fs rest hrest hholds hends
theorem Labelled.ShowAll.parse_chars {args : List (Option Labelled)} {gs : List Phrase} : Labelled.ShowAll args gs →
    ∀ {callee : Phrase} {done : List Phrase} {fs : List Frame} {rest : List Char}, gs ≠ [] ∨ done = [] →
      Phrase.parse (.arguments callee done :: fs) none
      (lexemes none ([',', ' '].intercalate (Phrase.charsAll gs) ++ ')' :: rest)) =
        Phrase.parse fs (some (.call callee (done ++ Phrase.normalAll gs))) (lexemes none rest)
  | .nil, callee, done, fs, rest, h => by
    obtain rfl := h.resolve_left (absurd rfl)
    rfl
  | @Labelled.ShowAll.cons _ _ _ f gs h hrest, callee, done, fs, rest, _ => by
    have hclosing : Phrase.Fits 0 false (.arguments callee done :: fs) (.closing :: lexemes none rest) := fun _ _ _ =>
        ⟨trivial, trivial⟩
    have hcomma : ∀ cs, Phrase.Fits 0 false (.arguments callee done :: fs) (.comma :: lexemes none cs) := fun _ _ _ _ =>
        ⟨trivial, trivial⟩
    cases gs with
    | nil =>
      rw [Phrase.charsAll, Phrase.charsAll, intercalate_singleton]
      refine (h.parse_chars stops_cons hclosing).trans ?_
      rw [show lexemes none (')' :: rest) = .closing :: lexemes none rest from rfl, Phrase.parse, Phrase.reduce_push]
      rfl
    | cons g gs =>
      rw [Phrase.charsAll, Phrase.charsAll, intercalate_cons_cons, append_assoc, append_assoc, cons_append,
        cons_append, nil_append]
      refine (h.parse_chars stops_cons (hcomma _)).trans ?_
      rw [show ∀ cs, lexemes none (',' :: ' ' :: cs) = .comma :: lexemes none cs from fun _ => rfl, Phrase.parse,
        Phrase.reduce_push]
      refine (hrest.parse_chars (.inl (cons_ne_nil g gs))).trans ?_
      rw [append_assoc]
      rfl
end

variable {e e' : Expr} {f f' : Phrase}

theorem Expr.Shows.source (h : e.Shows f) : ∃ text, e.source = .ok text ∧ text.toList = f.chars 0 false ∧
    Phrase.read text = some f.normal := by
  obtain ⟨text, htext, hchars⟩ := h.sourceAt 0 0 false
  refine ⟨text, htext, hchars, ?_⟩
  have hfits : Phrase.Fits 0 false [] (lexemes none []) := fun _ _ _ => ⟨trivial, trivial⟩
  have hread := h.parse_chars (fun _ hc => by cases hc) hfits
  rw [append_nil] at hread
  rw [Phrase.read, hchars, hread, lexemes, Phrase.parse, Phrase.reduce_push]
  rfl

/-! ### Phrases that print alike -/

namespace Phrase

variable {op : String} {m : Member} {args : List Phrase} {outer : Nat} {right : Bool} {x : Phrase}

/-- An operator is printed right before its operand, so what follows the operand may as well belong to it. -/
theorem chars_foldr {y : Phrase} {text : List Char}
    (hy : ∀ outer right, y.chars outer right = x.chars prefixPrecedence false ++ text) (ops : List String) (outer : Nat)
    (right : Bool) : (ops.foldr unary y).chars outer right = (ops.foldr unary x).chars prefixPrecedence false ++
    text := by
  induction ops generalizing outer right with
  | nil => exact hy outer right
  | cons op ops ih => rw [foldr_cons, chars, ih, foldr_cons, chars, ← append_assoc]

mutual
theorem chars_normal (outer : Nat) (right : Bool) : ∀ f : Phrase, f.normal.chars outer right = f.chars outer right
  | .name _ => rfl
  | .binary op l r => by
    have hnormal : (binary op l r).normal = .binary op l.normal r.normal := rfl
    rw [hnormal, chars, chars, chars_normal _ _ l, chars_normal _ _ r]
  | .unary op x => by
    have hnormal : (unary op x).normal = .unary op x.normal := rfl
    rw [hnormal, chars, chars, chars_normal _ _ x]
  | .select owner m => by
    refine (chars_foldr (x := owner.core) (fun _ _ => by rw [core, chars]) owner.before outer right).trans ?_
    rw [chars, ← chars_normal _ _ owner]
    rfl
  | .call callee args => by
    refine (chars_foldr (x := callee.core) (fun _ _ => by rw [core, chars, append_assoc]) callee.before outer
      right).trans ?_
    rw [chars, ← chars_normal _ _ callee, charsAll_normalAll args, append_assoc]
    rfl
theorem charsAll_normalAll : ∀ fs : List Phrase, charsAll (normalAll fs) = charsAll fs
  | [] => rfl
  | f :: fs => congrArg₂ cons (chars_normal 0 false f) (charsAll_normalAll fs)
end

mutual
/-- No operator stands before an owner or a callee. -/
def Direct : Phrase → Prop
  | .name _ => True
  | .binary _ l r => l.Direct ∧ r.Direct
  | .unary _ x => x.Direct
  | .select owner _ => owner.before = [] ∧ owner.Direct
  | .call callee args => callee.before = [] ∧ callee.Direct ∧ DirectAll args
def DirectAll : List Phrase → Prop
  | [] => True
  | f :: fs => f.Direct ∧ DirectAll fs
end

mutual
theorem Direct.normal_eq : ∀ {f : Phrase}, f.Direct → f.normal = f
  | .name _, _ => rfl
  | .binary op l r, h => congrArg₂ (binary op) h.1.normal_eq h.2.normal_eq
  | .unary op x, h => by
    have hx : x.Direct := h
    exact congrArg (unary op) hx.normal_eq
  | .select owner m, h => by
    obtain ⟨hbefore, howner⟩ := h
    have hcore := howner.normal_eq
    rw [normal, hbefore] at hcore
    rw [normal, before, hbefore]
    exact congrArg (select · m) hcore
  | .call callee args, h => by
    obtain ⟨hbefore, hcallee, hargs⟩ := h
    have hcore := hcallee.normal_eq
    rw [normal, hbefore] at hcore
    rw [normal, before, hbefore]
    exact congrArg₂ call hcore hargs.normalAll_eq
theorem DirectAll.normalAll_eq : ∀ {fs : List Phrase}, DirectAll fs → normalAll fs = fs
  | [], _ => rfl
  | _ :: _, h => congrArg₂ cons h.1.normal_eq h.2.normalAll_eq
end

theorem Operators.direct : ∀ {f : Phrase}, f.Operators → f.Direct
  | .name _, _ => trivial
  | .binary _ _ _, h => ⟨h.1.direct, h.2.direct⟩
  | .unary _ x, h => Operators.direct (f := x) h

end Phrase

/-- **Operators are printed faithfully.** The text of a tree of plain names and operators is read back as this tree, so
no two of them have one text. -/
theorem operators_read_back (e : Expr) (f : Phrase) (h : e.Shows f) (hf : f.Operators) :
    ∃ text, e.source = .ok text ∧ Phrase.read text = some f ∧
      ∀ e' f', Expr.Shows e' f' → f'.Operators → e'.source = .ok text → f' = f := by
  obtain ⟨text, htext, -, hread⟩ := h.source
  rw [hf.direct.normal_eq] at hread
  refine ⟨text, htext, hread, fun e' f' h' hf' htext' => ?_⟩
  obtain ⟨text', heq, -, hread'⟩ := h'.source
  obtain rfl := Except.ok.inj (htext'.symm.trans heq)
  rw [hf'.direct.normal_eq] at hread'
  exact Option.some.inj (hread'.symm.trans hread)

theorem plain_a : Plain "a" := ⟨by simp, by simp [isNameChar, delimiters], by simp, by cbv⟩

/-- Operators of all sides and precedences, in one another. -/
def nestedOperators : Expr :=
  .buildBinary "*"
    (.buildUnary "-" (.buildBinary "-" (.ofName "a") (.buildBinary "-" (.ofName "a") (.buildUnary "not" (.ofName "a")))))
    (.ofName "a")

theorem nestedOperators_read_back : nestedOperators.source = .ok "-(a - (a - not a)) * a" ∧
    Phrase.read "-(a - (a - not a)) * a" = some (.binary "*"
      (.unary "-" (.binary "-" (.name "a") (.binary "-" (.name "a") (.unary "not" (.name "a"))))) (.name "a")) := by
  have ha : (Expr.ofName "a").Shows (.name "a") := .name plain_a
  have hshows : nestedOperators.Shows (.binary "*"
      (.unary "-" (.binary "-" (.name "a") (.binary "-" (.name "a") (.unary "not" (.name "a"))))) (.name "a")) :=
    .binary (by decide) (.unary (by decide) (.binary (by decide) ha (.binary (by decide) ha (.unary (by decide) ha))))
      ha
  have htext : nestedOperators.source = .ok "-(a - (a - not a)) * a" := by cbv
  obtain ⟨text, heq, hread, -⟩ := operators_read_back _ _ hshows ⟨⟨trivial, trivial, trivial⟩, trivial⟩
  obtain rfl := Except.ok.inj (htext.symm.trans heq)
  exact ⟨htext, hread⟩

/-- **Which trees print alike.** Trees of plain names, operators, selections and calls have one text exactly if they
differ in no more than operators that stand before an owner or a callee in one and before the whole selection or call in
the other. So trees without an operator before an owner or a callee have different texts if they are different. -/
theorem sources_alike_iff (e e' : Expr) (f f' : Phrase) (h : e.Shows f) (h' : e'.Shows f') :
    (∃ text text', e.source = .ok text ∧ e'.source = .ok text' ∧ (text = text' ↔ f.normal = f'.normal)) ∧
      (f.Direct → f'.Direct → e.source = e'.source → f = f') := by
  obtain ⟨text, htext, hchars, hread⟩ := h.source
  obtain ⟨text', htext', hchars', hread'⟩ := h'.source
  have hiff : text = text' ↔ f.normal = f'.normal := by
    refine ⟨fun heq => Option.some.inj (hread.symm.trans (heq ▸ hread')), fun heq => String.toList_inj.mp ?_⟩
    rw [hchars, hchars', ← Phrase.chars_normal 0 false f, heq, Phrase.chars_normal]
  refine ⟨⟨text, text', htext, htext', hiff⟩, fun hf hf' heq => ?_⟩
  rw [htext, htext'] at heq
  exact hf.normal_eq ▸ hf'.normal_eq ▸ hiff.mp (Except.ok.inj heq)

/-- An operator before a selection and one before its owner. -/
theorem operator_and_owner_alike : (Expr.buildUnary "-" (.buildSelect (.ofName "a") (.label "a"))).source = .ok "-a.a" ∧
    (Expr.buildSelect (.buildUnary "-" (.ofName "a")) (.label "a")).source = .ok "-a.a" := by
  have ha : (Expr.ofName "a").Shows (.name "a") := .name plain_a
  have houter : (Expr.buildUnary "-" (.buildSelect (.ofName "a") (.label "a"))).Shows _ :=
    .unary (by decide) (.select plain_a ha)
  have hinner : (Expr.buildSelect (.buildUnary "-" (.ofName "a")) (.label "a")).Shows _ :=
    .select plain_a (.unary (by decide) ha)
  obtain ⟨⟨text, text', htext, htext', hiff⟩, -⟩ := sources_alike_iff _ _ _ _ houter hinner
  have hprinted : (Expr.buildUnary "-" (.buildSelect (.ofName "a") (.label "a"))).source = .ok "-a.a" := by cbv
  obtain rfl := Except.ok.inj (hprinted.symm.trans htext)
  exact ⟨hprinted, (hiff.mpr rfl) ▸ htext'⟩

end TypeInference
