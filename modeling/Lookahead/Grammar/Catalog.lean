import Lookahead.Grammar.Error

/-!
# Catalogs

A **catalog** holds the declared terminals and non-terminals, each in the order of its first
declaration, the start symbol, and the symbols that names are looked up among.  It has one moment
of decision.  A new catalog is *open*: it declares nothing and has no start symbol.  `freeze` checks
its arguments and fills the catalog in; from then on the catalog is *frozen*, and freezing it again
does nothing, not even a check.

## 1. What is checked

In this order: no terminal is a non-terminal as well (the first such terminal is reported), the
end marker is not declared, and the start symbol is a declared non-terminal.  A refused `freeze`
leaves the catalog as it was.

## 2. Questions and requests

Every question about a name is answered from the symbols that are kept, and a question about a name
that is not declared is refused with that name.  `Request` lists
everything that can be asked of a catalog, and `serve` answers a request and says in which state
it leaves the catalog, so a whole conversation is a fold (`run`).
-/

namespace Lookahead

/-- The symbols of declared names: each name once, where it stands first, and of the kind it is
given last. -/
def symbolsOf (terminals nonterminals : List Name) : List Symbol :=
  (firstOccurrences (terminals ++ nonterminals)).map fun n =>
    ⟨n, if n ∈ nonterminals then .nonterminal else .terminal⟩

/-- Declared names, the symbols they are looked up among, and the start symbol. -/
structure Catalog where
  symbols : List Symbol
  terminals : List Name
  nonterminals : List Name
  start : Option Name
  isFrozen : Bool
  /-- What is looked up is what is listed. -/
  symbols_eq : symbols = symbolsOf terminals nonterminals
deriving DecidableEq, Repr

namespace Catalog

/-- The open catalog. -/
def new : Catalog := ⟨[], [], [], none, false, rfl⟩

instance : Inhabited Catalog := ⟨new⟩

/-- The frozen catalog of some names. -/
def frozen (terminals nonterminals : List Name) (start : Option Name) : Catalog :=
  ⟨symbolsOf terminals nonterminals, terminals, nonterminals, start, true, rfl⟩

section

variable (ts ns : List Name) (s : Option Name)

@[simp] theorem frozen_terminals : (frozen ts ns s).terminals = ts := rfl

@[simp] theorem frozen_nonterminals : (frozen ts ns s).nonterminals = ns := rfl

@[simp] theorem frozen_start : (frozen ts ns s).start = s := rfl

@[simp] theorem frozen_isFrozen : (frozen ts ns s).isFrozen = true := rfl

end

theorem eq_frozen {c : Catalog} (h : c.isFrozen = true) :
    c = frozen c.terminals c.nonterminals c.start := by
  obtain ⟨symbols, ts, ns, s, isFrozen, rfl⟩ := c
  cases h
  rfl

/-! ## 1. Freezing -/

/-- The first fault in what a catalog is to be frozen with. -/
def freezeFault? (terminals nonterminals : List Name) (start : Option Name) :
    Option GrammarError :=
  match terminals.find? (· ∈ nonterminals) with
  | some n => some (.ambiguousKind n)
  | none =>
    if endMarker ∈ terminals ∨ endMarker ∈ nonterminals then some .reserved
    else match start with
      | none => some (.invalidStart none)
      | some s => if s ∈ nonterminals then none else some (.invalidStart (some s))

/-- Fills in an open catalog; a frozen one is left as it is. -/
def freeze (c : Catalog) (terminals nonterminals : List Name) (start : Option Name) :
    Except GrammarError Catalog :=
  if c.isFrozen then .ok c
  else match freezeFault? terminals nonterminals start with
    | some e => .error e
    | none => .ok (frozen (firstOccurrences terminals) (firstOccurrences nonterminals) start)

theorem freeze_of_isFrozen {c : Catalog} (h : c.isFrozen = true) (ts ns : List Name)
    (s : Option Name) : c.freeze ts ns s = .ok c := by
  simp [freeze, h]

theorem freeze_of_fault {c : Catalog} (h : c.isFrozen = false) {ts ns : List Name}
    {s : Option Name} {e : GrammarError} (hf : freezeFault? ts ns s = some e) :
    c.freeze ts ns s = .error e := by
  simp [freeze, h, hf]

theorem freeze_of_no_fault {c : Catalog} (h : c.isFrozen = false) {ts ns : List Name}
    {s : Option Name} (hf : freezeFault? ts ns s = none) :
    c.freeze ts ns s = .ok (frozen (firstOccurrences ts) (firstOccurrences ns) s) := by
  simp [freeze, h, hf]

/-! ## 2. Questions -/

/-- The symbol that is found for a name. -/
def symbol? (c : Catalog) (n : Name) : Option Symbol := c.symbols.find? (·.name = n)

/-- The declared symbol of a name. -/
def symbol (c : Catalog) (n : Name) : Except GrammarError Symbol :=
  match c.symbol? n with
  | some s => .ok s
  | none => .error (.unknownSymbol n)

/-- Whether the name is declared. -/
def contains (c : Catalog) (n : Name) : Bool := (c.symbol? n).isSome

/-- Whether the name is a declared terminal. -/
def isTerminal (c : Catalog) (n : Name) : Bool := (c.symbol? n).any (·.isTerminal)

/-- Whether the name is a declared non-terminal. -/
def isNonterminal (c : Catalog) (n : Name) : Bool := (c.symbol? n).any (! ·.isTerminal)

theorem symbol?_eq (c : Catalog) (n : Name) :
    c.symbol? n = if n ∈ c.nonterminals then some ⟨n, .nonterminal⟩
      else if n ∈ c.terminals then some ⟨n, .terminal⟩ else none := by
  have hfind : c.symbol? n =
      ((firstOccurrences (c.terminals ++ c.nonterminals)).find? (· = n)).map fun m =>
        ⟨m, if m ∈ c.nonterminals then .nonterminal else .terminal⟩ := by
    rw [symbol?, c.symbols_eq, symbolsOf, List.find?_map]
    rfl
  rw [hfind]
  cases hf : (firstOccurrences (c.terminals ++ c.nonterminals)).find? (· = n) with
  | some m =>
    obtain rfl : m = n := by simpa using List.find?_some hf
    have hmem := mem_firstOccurrences.1 (List.mem_of_find?_eq_some hf)
    grind
  | none =>
    have hnone : ∀ m ∈ c.terminals ++ c.nonterminals, m ≠ n := by simpa using hf
    grind

@[simp] theorem contains_iff {c : Catalog} {n : Name} :
    c.contains n = true ↔ n ∈ c.terminals ∨ n ∈ c.nonterminals := by
  rw [contains, symbol?_eq]
  grind

@[simp] theorem isNonterminal_iff {c : Catalog} {n : Name} :
    c.isNonterminal n = true ↔ n ∈ c.nonterminals := by
  rw [isNonterminal, symbol?_eq]
  grind [Symbol.isTerminal]

theorem isTerminal_iff {c : Catalog} {n : Name} :
    c.isTerminal n = true ↔ n ∈ c.terminals ∧ n ∉ c.nonterminals := by
  rw [isTerminal, symbol?_eq]
  grind [Symbol.isTerminal]

/-- The name, if it is a declared non-terminal. -/
def requireNonterminal (c : Catalog) (n : Name) : Except GrammarError Name :=
  if c.isNonterminal n then .ok n else .error (.unknownNonterminal n)

theorem requireNonterminal_of_mem {c : Catalog} {n : Name} (hn : n ∈ c.nonterminals) :
    c.requireNonterminal n = .ok n := by
  rw [requireNonterminal, if_pos (isNonterminal_iff.2 hn)]

theorem requireNonterminal_of_notMem {c : Catalog} {n : Name} (hn : n ∉ c.nonterminals) :
    c.requireNonterminal n = .error (.unknownNonterminal n) := by
  rw [requireNonterminal, if_neg (mt isNonterminal_iff.1 hn)]

/-- The names, if all of them are declared; the leftmost one that is not is reported. -/
def requireAll (c : Catalog) (ns : List Name) : Except GrammarError (List Name) :=
  match ns.find? (! c.contains ·) with
  | some n => .error (.unknownSymbol n)
  | none => .ok ns

/-- A catalog as it is shown. -/
def render (c : Catalog) : Text :=
  "SymbolCatalog(terms=" ++ Text.quotedList c.terminals ++
    ", nonterms=" ++ Text.quotedList c.nonterminals ++
    ", start=" ++ c.start.getD "None" ++ ")"

/-! ## 3. Productions over a catalog -/

/-- The first fault of a production: its left-hand side, else the leftmost undeclared name. -/
def productionFault? (c : Catalog) (p : Production) : Option GrammarError :=
  if c.isNonterminal p.lhs then
    (p.rhs.find? (! c.contains ·)).map (.undeclaredSymbol p ·)
  else some (.unknownLhs p)

/-- The productions, if each of them is over the catalog; else the first fault. -/
def checkProductions (c : Catalog) (ps : List Production) :
    Except GrammarError (List Production) :=
  match ps.findSome? c.productionFault? with
  | some e => .error e
  | none => .ok ps

/-- The alternatives of all non-terminals, in the order of the catalog. -/
def allAlternatives (c : Catalog) (ps : List Production) : List Alternative :=
  c.nonterminals.flatMap (alternativesOf ps)

/-! ## 4. Requests -/

/-- What can be asked of a catalog. -/
inductive Request where
  | freeze (terminals nonterminals : List Name) (start : Option Name)
  | symbol (name : Name)
  | contains (name : Name)
  | isTerminal (name : Name)
  | isNonterminal (name : Name)
  | requireNonterminal (name : Name)
  | requireAll (names : List Name)
  | terminals
  | nonterminals
  | start
  | symbols
  | render
  /-- The productions, checked against the catalog. -/
  | table (productions : List Production)
deriving DecidableEq, Repr

/-- What a catalog answers. -/
inductive Reply where
  | done
  | symbol (s : Symbol)
  | truth (b : Bool)
  | name (n : Name)
  | names (ns : List Name)
  | start (n : Option Name)
  | symbols (ss : List Symbol)
  | text (t : Text)
  | table (productions : List Production) (alternatives : List Alternative)
deriving DecidableEq, Repr

/-- The answer to a request, and the catalog afterwards. -/
def serve (c : Catalog) : Request → Catalog × Except GrammarError Reply
  | .freeze ts ns s =>
    match c.freeze ts ns s with
    | .ok c' => (c', .ok .done)
    | .error e => (c, .error e)
  | .symbol n => (c, (c.symbol n).map .symbol)
  | .contains n => (c, .ok (.truth (c.contains n)))
  | .isTerminal n => (c, .ok (.truth (c.isTerminal n)))
  | .isNonterminal n => (c, .ok (.truth (c.isNonterminal n)))
  | .requireNonterminal n => (c, (c.requireNonterminal n).map .name)
  | .requireAll ns => (c, (c.requireAll ns).map .names)
  | .terminals => (c, .ok (.names c.terminals))
  | .nonterminals => (c, .ok (.names c.nonterminals))
  | .start => (c, .ok (.start c.start))
  | .symbols => (c, .ok (.symbols c.symbols))
  | .render => (c, .ok (.text c.render))
  | .table ps => (c, (c.checkProductions ps).map fun ps => .table ps (c.allAlternatives ps))

/-- The catalog after a series of requests. -/
def run (c : Catalog) (requests : List Request) : Catalog :=
  requests.foldl (fun c r => (c.serve r).1) c

/-- The answers to a series of requests, in order. -/
def replies (c : Catalog) : List Request → List (Except GrammarError Reply)
  | [] => []
  | r :: rs => (c.serve r).2 :: (c.serve r).1.replies rs

end Catalog

end Lookahead
