import ThreeAddress.Instr.Build
import ThreeAddress.Source.Token
/-!
# Declarations and their grammar

A source text is a sequence of declarations:

* a variable, `var @name = number ;`
* a procedure, `proc @name ( temporaries ) : items`, where a comma may end the temporaries
* an item, which is `label :` or an instruction `[destination =] opcode arguments ;`
* arguments, which are operands between commas, or pairs `edge : operand` in parentheses, where a
  comma may end the pairs

`declarations` reads the tokens of a whole text. One token always decides what comes next, so when
no declaration can be read there is one token that no rule accepts; what is left from that token
on is the error.
-/

namespace ThreeAddress

/-- The operands of an instruction as written. -/
inductive Arguments where
  /-- Operands between commas. -/
  | plain (operands : List Operand)
  /-- Pairs of edge and operand. -/
  | pairs (pairs : List (Origin × Operand))
deriving DecidableEq

/-- A line of a procedure, before its signature is checked. -/
inductive Item where
  /-- A label. -/
  | label (l : Label)
  /-- An instruction. -/
  | instr (dest : Option Operand) (opcode : String) (args : Arguments)
deriving DecidableEq

/-- A declaration, before its contents are checked. -/
inductive Declaration where
  /-- A variable with the text of its initial value. -/
  | var (name : Global) (value : String)
  /-- A procedure with its parameters and its lines. -/
  | proc (name : Global) (params : List Temp) (items : List (Located Item))
deriving DecidableEq

namespace Grammar

/-- The tokens that are still to be read. -/
abbrev Tokens := List (Located Token)

theorem bind_eq_ok {α β : Type} {x : Except Tokens (α × Tokens)} {f : α × Tokens → Except Tokens β}
    {b : β} : x >>= f = .ok b ↔ ∃ a left, x = .ok (a, left) ∧ f (a, left) = .ok b := by
  cases x with
  | error e => simp [bind, Except.bind]
  | ok a =>
    refine ⟨fun h => ⟨a.1, a.2, rfl, h⟩, ?_⟩
    rintro ⟨_, _, ⟨rfl⟩, h⟩
    exact h

theorem pure_eq_ok {α : Type} {a b : α} : (pure a : Except Tokens α) = .ok b ↔ a = b := by
  simp [pure, Except.pure]

/-! ## What one token can be -/

/-- The token as a temporary. A name that no temporary has is not accepted. -/
def temp? : Token → Option Temp
  | .temp name => Temp.ofText? name
  | _ => none

/-- The token as an operand. -/
def operand? : Token → Option Operand
  | .temp name => (Temp.ofText? name).map .temp
  | .global name => some (.global ⟨name⟩)
  | .label suffix => some (.label ⟨suffix⟩)
  | .number text => some (.literal text)
  | _ => none

/-- The token as a destination. -/
def destination? : Token → Option Operand
  | .temp name => (Temp.ofText? name).map .temp
  | .global name => some (.global ⟨name⟩)
  | _ => none

/-- The token as an edge of a phi. -/
def edge? : Token → Option Origin
  | .label suffix => some (.block ⟨suffix⟩)
  | .word text => if text = "entry" then some .entry else none
  | _ => none

/-! ## Lists -/

/-- A punctuation mark. -/
def mark (c : Char) : Tokens → Except Tokens (Span × Tokens)
  | t :: rest => if t.value = .mark c then .ok (t.span, rest) else .error (t :: rest)
  | [] => .error []

/-- The temporaries behind an opening parenthesis, up to the closing one. -/
def params : Tokens → Except Tokens (List Temp × Tokens)
  | [] => .error []
  | t :: rest =>
    if t.value = .mark ')' then .ok ([], rest)
    else
      match temp? t.value with
      | none => .error (t :: rest)
      | some p =>
        match rest with
        | [] => .error []
        | u :: more =>
          if u.value = .mark ',' then do
            let (ps, left) ← params more
            return (p :: ps, left)
          else if u.value = .mark ')' then .ok ([p], more)
          else .error (u :: more)

/-- The pairs behind an opening parenthesis, up to the closing one. -/
def pairs : Tokens → Except Tokens (List (Origin × Operand) × Tokens)
  | [] => .error []
  | t :: rest =>
    if t.value = .mark ')' then .ok ([], rest)
    else
      match edge? t.value with
      | none => .error (t :: rest)
      | some edge =>
        match rest with
        | [] => .error []
        | [colon] => if colon.value = .mark ':' then .error [] else .error [colon]
        | [colon, u] =>
          if colon.value = .mark ':' then
            match operand? u.value with
            | none => .error [u]
            | some _ => .error []
          else .error [colon, u]
        | colon :: u :: v :: more =>
          if colon.value = .mark ':' then
            match operand? u.value with
            | none => .error (u :: v :: more)
            | some arg =>
              if v.value = .mark ',' then do
                let (ps, left) ← pairs more
                return ((edge, arg) :: ps, left)
              else if v.value = .mark ')' then .ok ([(edge, arg)], more)
              else .error (v :: more)
          else .error (colon :: u :: v :: more)

/-- The operands behind an operand, each after a comma. -/
def moreOperands : Tokens → Except Tokens (List Operand × Tokens)
  | [] => .ok ([], [])
  | comma :: rest =>
    if comma.value = .mark ',' then
      match rest with
      | [] => .error []
      | t :: more =>
        match operand? t.value with
        | none => .error (t :: more)
        | some o => do
          let (os, left) ← moreOperands more
          return (o :: os, left)
    else .ok ([], comma :: rest)

/-- The arguments of an instruction, none at all included. -/
def arguments : Tokens → Except Tokens (Arguments × Tokens)
  | [] => .ok (.plain [], [])
  | t :: rest =>
    if t.value = .mark '(' then do
      let (ps, left) ← pairs rest
      return (.pairs ps, left)
    else
      match operand? t.value with
      | none => .ok (.plain [], t :: rest)
      | some o => do
        let (os, left) ← moreOperands rest
        return (.plain (o :: os), left)

/-! ## Items -/

/-- An instruction from its opcode on, which began at the given offset. -/
def instruction (start : Nat) (dest : Option Operand) : Tokens → Except Tokens (Located Item × Tokens)
  | ⟨.word opcode, _⟩ :: rest => do
    let (args, rest) ← arguments rest
    let (stop, rest) ← mark ';' rest
    return (⟨.instr dest opcode args, ⟨start, stop.stop⟩⟩, rest)
  | refused => .error refused

/-- A label or an instruction. -/
def item : Tokens → Except Tokens (Located Item × Tokens)
  | [] => .error []
  | ⟨.label suffix, span⟩ :: rest => do
    let (colon, rest) ← mark ':' rest
    return (⟨.label ⟨suffix⟩, ⟨span.start, colon.stop⟩⟩, rest)
  | t :: rest =>
    match destination? t.value with
    | some dest => do
      let (_, rest) ← mark '=' rest
      instruction t.span.start (some dest) rest
    | none => instruction t.span.start none (t :: rest)

/-! ## Nothing is read twice -/

theorem mark_length {c : Char} {ts left : Tokens} {s : Span} (h : mark c ts = .ok (s, left)) :
    left.length < ts.length := by
  cases ts with
  | nil => simp [mark] at h
  | cons t rest =>
    simp only [mark] at h
    split at h
    · simp only [Except.ok.injEq, Prod.mk.injEq] at h
      simp [← h.2]
    · simp at h

theorem pairs_length {ts left : Tokens} {ps : List (Origin × Operand)}
    (h : pairs ts = .ok (ps, left)) : left.length < ts.length := by
  fun_induction pairs ts generalizing ps left with
  | case2 t rest => simp_all
  | case11 t ht edge he colon u v more hc arg ha hv ih =>
    obtain ⟨_, _, h₁, h₂⟩ := bind_eq_ok.1 h
    obtain ⟨_, rfl⟩ := pure_eq_ok.1 h₂
    have := ih h₁
    simp only [List.length_cons]
    omega
  | case12 => grind
  | _ => simp_all

theorem moreOperands_length {ts left : Tokens} {os : List Operand}
    (h : moreOperands ts = .ok (os, left)) : left.length ≤ ts.length := by
  fun_induction moreOperands ts generalizing os left with
  | case4 comma hc t more o ho ih =>
    obtain ⟨_, _, h₁, h₂⟩ := bind_eq_ok.1 h
    obtain ⟨_, rfl⟩ := pure_eq_ok.1 h₂
    have := ih h₁
    simp only [List.length_cons]
    omega
  | case5 => grind
  | _ => simp_all

theorem arguments_length {ts left : Tokens} {args : Arguments}
    (h : arguments ts = .ok (args, left)) : left.length ≤ ts.length := by
  cases ts with
  | nil => simp_all [arguments]
  | cons t rest =>
    rw [arguments] at h
    split at h
    · obtain ⟨_, _, h₁, h₂⟩ := bind_eq_ok.1 h
      obtain ⟨_, rfl⟩ := pure_eq_ok.1 h₂
      have := pairs_length h₁
      simp only [List.length_cons]
      omega
    · split at h
      · simp_all
      · obtain ⟨_, _, h₁, h₂⟩ := bind_eq_ok.1 h
        obtain ⟨_, rfl⟩ := pure_eq_ok.1 h₂
        have := moreOperands_length h₁
        simp only [List.length_cons]
        omega

theorem instruction_length {start : Nat} {dest : Option Operand} {ts left : Tokens}
    {i : Located Item} (h : instruction start dest ts = .ok (i, left)) :
    left.length < ts.length := by
  rw [instruction.eq_def] at h
  split at h
  · obtain ⟨_, _, h₁, h⟩ := bind_eq_ok.1 h
    obtain ⟨_, _, h₂, h⟩ := bind_eq_ok.1 h
    obtain ⟨_, rfl⟩ := pure_eq_ok.1 h
    have := arguments_length h₁
    have := mark_length h₂
    simp only [List.length_cons]
    omega
  · simp at h

theorem item_length {ts left : Tokens} {i : Located Item} (h : item ts = .ok (i, left)) :
    left.length < ts.length := by
  rw [item.eq_def] at h
  split at h
  · simp at h
  · obtain ⟨_, _, h₁, h⟩ := bind_eq_ok.1 h
    obtain ⟨_, rfl⟩ := pure_eq_ok.1 h
    have := mark_length h₁
    simp only [List.length_cons]
    omega
  · split at h
    · obtain ⟨_, _, h₁, h⟩ := bind_eq_ok.1 h
      have := mark_length h₁
      have := instruction_length h
      simp only [List.length_cons]
      omega
    · exact instruction_length h

/-! ## Declarations -/

/-- All items up to a token that begins none. -/
def items (ts : Tokens) : Except Tokens (List (Located Item) × Tokens) :=
  match h : item ts with
  | .ok (i, rest) => do
    have := item_length h
    let (is, left) ← items rest
    return (i :: is, left)
  | .error refused => if refused.length = ts.length then .ok ([], ts) else .error refused
termination_by ts.length

/-- The name of a global. -/
def globalName : Tokens → Except Tokens (Global × Tokens)
  | ⟨.global name, _⟩ :: rest => .ok (⟨name⟩, rest)
  | refused => .error refused

/-- A number. -/
def number : Tokens → Except Tokens (String × Tokens)
  | ⟨.number text, _⟩ :: rest => .ok (text, rest)
  | refused => .error refused

/-- One declaration. -/
def declaration : Tokens → Except Tokens (Located Declaration × Tokens)
  | ⟨.varKeyword, span⟩ :: rest => do
    let (name, rest) ← globalName rest
    let (_, rest) ← mark '=' rest
    let (value, rest) ← number rest
    let (last, rest) ← mark ';' rest
    return (⟨.var name value, ⟨span.start, last.stop⟩⟩, rest)
  | ⟨.procKeyword, span⟩ :: rest => do
    let (name, rest) ← globalName rest
    let (_, rest) ← mark '(' rest
    let (params, rest) ← params rest
    let (colon, rest) ← mark ':' rest
    let (items, rest) ← items rest
    let last := (items.getLast?.map Located.span).getD colon
    return (⟨.proc name params items, ⟨span.start, last.stop⟩⟩, rest)
  | refused => .error refused

theorem items_length {ts left : Tokens} {is : List (Located Item)}
    (h : items ts = .ok (is, left)) : left.length ≤ ts.length := by
  rw [items] at h
  split at h
  · next i rest hi =>
    obtain ⟨_, _, h₁, h⟩ := bind_eq_ok.1 h
    obtain ⟨_, rfl⟩ := pure_eq_ok.1 h
    have shorter := item_length hi
    have := items_length h₁
    omega
  · split at h
    · simp_all
    · simp at h
termination_by ts.length

theorem params_length {ts left : Tokens} {ps : List Temp} (h : params ts = .ok (ps, left)) :
    left.length < ts.length := by
  fun_induction params ts generalizing ps left with
  | case2 t rest => simp_all
  | case5 t ht p hp u more hu ih =>
    obtain ⟨_, _, h₁, h₂⟩ := bind_eq_ok.1 h
    obtain ⟨_, rfl⟩ := pure_eq_ok.1 h₂
    have := ih h₁
    simp only [List.length_cons]
    omega
  | case6 =>
    cases h
    simp only [List.length_cons]
    omega
  | _ => simp_all

theorem globalName_length {ts left : Tokens} {g : Global} (h : globalName ts = .ok (g, left)) :
    left.length < ts.length := by
  rw [globalName.eq_def] at h
  split at h
  · simp only [Except.ok.injEq, Prod.mk.injEq] at h
    simp [← h.2]
  · simp at h

theorem number_length {ts left : Tokens} {s : String} (h : number ts = .ok (s, left)) :
    left.length < ts.length := by
  rw [number.eq_def] at h
  split at h
  · simp only [Except.ok.injEq, Prod.mk.injEq] at h
    simp [← h.2]
  · simp at h

theorem declaration_length {ts left : Tokens} {d : Located Declaration}
    (h : declaration ts = .ok (d, left)) : left.length < ts.length := by
  rw [declaration.eq_def] at h
  split at h
  · simp only [bind_eq_ok, pure_eq_ok, Prod.mk.injEq] at h
    obtain ⟨_, l₁, h₁, _, l₂, h₂, _, l₃, h₃, _, l₄, h₄, _, rfl⟩ := h
    have := globalName_length h₁
    have := mark_length h₂
    have := number_length h₃
    have := mark_length h₄
    simp only [List.length_cons]
    omega
  · simp only [bind_eq_ok, pure_eq_ok, Prod.mk.injEq] at h
    obtain ⟨_, l₁, h₁, _, l₂, h₂, _, l₃, h₃, _, l₄, h₄, _, l₅, h₅, _, rfl⟩ := h
    have := globalName_length h₁
    have := mark_length h₂
    have := params_length h₃
    have := mark_length h₄
    have := items_length h₅
    simp only [List.length_cons]
    omega
  · simp at h

/-- All declarations of a text, or the tokens from the one that no rule accepts. -/
def declarations (ts : Tokens) : Except Tokens (List (Located Declaration)) :=
  if ts.isEmpty then .ok []
  else
    match h : declaration ts with
    | .ok (d, rest) => do
      have := declaration_length h
      let ds ← declarations rest
      return d :: ds
    | .error refused => .error refused
termination_by ts.length

end Grammar

end ThreeAddress
