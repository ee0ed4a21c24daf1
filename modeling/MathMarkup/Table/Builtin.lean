/-
MathMarkup/Table/Builtin.lean

The commands that every table starts with: names of functions, operators,
letters and spaces.
-/
import MathMarkup.Table.Basic

namespace MathMarkup

namespace Table

/-- Functions that are written as they are called. -/
def builtinFunctions : List String :=
  ["sin", "cos", "tan", "csc", "sec", "cot", "arcsin", "arccos", "arctan", "sinh", "cosh", "tanh",
   "coth", "exp", "ln", "lg", "log", "erf", "erfc", "arg", "deg", "det", "dim", "hom", "ker",
   "gcd", "lcm", "Pr"]

/-- Operators and their glyphs. -/
def builtinOperators : List (String × String) :=
  [("times", "×"), ("div", "÷"), ("cdot", "⋅"), ("ast", "∗"), ("star", "⋆"), ("circ", "∘"),
   ("bullet", "∙"), ("pm", "±"), ("mp", "∓"), ("oplus", "⊕"), ("ominus", "⊖"), ("otimes", "⊗"),
   ("oslash", "⊘"), ("odot", "⊙"), ("cup", "∪"), ("cap", "∩"), ("sqcup", "⊔"), ("sqcap", "⊓"),
   ("vee", "∨"), ("wedge", "∧"), ("lor", "∨"), ("land", "∧"), ("neg", "¬"), ("lnot", "¬"),
   ("setminus", "∖"), ("uplus", "⊎"), ("amalg", "⨿"), ("dagger", "†"), ("leq", "≤"), ("le", "≤"),
   ("geq", "≥"), ("ge", "≥"), ("neq", "≠"), ("ne", "≠"), ("ll", "≪"), ("gg", "≫"),
   ("approx", "≈"), ("equiv", "≡"), ("sim", "∼"), ("simeq", "≃"), ("cong", "≅"), ("propto", "∝"),
   ("in", "∈"), ("notin", "∉"), ("ni", "∋"), ("subset", "⊂"), ("subseteq", "⊆"), ("supset", "⊃"),
   ("supseteq", "⊇"), ("mid", "∣"), ("parallel", "∥"), ("perp", "⊥"), ("colon", ":"),
   ("forall", "∀"), ("exists", "∃"), ("to", "→"), ("rightarrow", "→"), ("leftarrow", "←"),
   ("gets", "←"), ("leftrightarrow", "↔"), ("Rightarrow", "⇒"), ("Leftarrow", "⇐"),
   ("Leftrightarrow", "⇔"), ("implies", "⟹"), ("iff", "⟺"), ("mapsto", "↦"),
   ("longrightarrow", "⟶"), ("longleftarrow", "⟵"), ("uparrow", "↑"), ("downarrow", "↓"),
   ("ldots", "…"), ("dots", "…"), ("cdots", "⋯"), ("vdots", "⋮"), ("ddots", "⋱"), ("prime", "′"),
   ("angle", "∠"), ("lbrace", "\x7b"), ("rbrace", "\x7d")]

/-- Letters and their glyphs. -/
def builtinLetters : List (String × String) :=
  [("alpha", "α"), ("beta", "β"), ("gamma", "γ"), ("delta", "δ"), ("epsilon", "ϵ"),
   ("varepsilon", "ε"), ("zeta", "ζ"), ("eta", "η"), ("theta", "θ"), ("vartheta", "ϑ"),
   ("iota", "ι"), ("kappa", "κ"), ("lambda", "λ"), ("mu", "μ"), ("nu", "ν"), ("xi", "ξ"),
   ("omicron", "ο"), ("pi", "π"), ("varpi", "ϖ"), ("rho", "ρ"), ("varrho", "ϱ"), ("sigma", "σ"),
   ("varsigma", "ς"), ("tau", "τ"), ("upsilon", "υ"), ("phi", "ϕ"), ("varphi", "φ"), ("chi", "χ"),
   ("psi", "ψ"), ("omega", "ω"), ("Alpha", "Α"), ("Beta", "Β"), ("Gamma", "Γ"), ("Delta", "Δ"),
   ("Epsilon", "Ε"), ("Zeta", "Ζ"), ("Eta", "Η"), ("Theta", "Θ"), ("Iota", "Ι"), ("Kappa", "Κ"),
   ("Lambda", "Λ"), ("Mu", "Μ"), ("Nu", "Ν"), ("Xi", "Ξ"), ("Omicron", "Ο"), ("Pi", "Π"),
   ("Rho", "Ρ"), ("Sigma", "Σ"), ("Tau", "Τ"), ("Upsilon", "Υ"), ("Phi", "Φ"), ("Chi", "Χ"),
   ("Psi", "Ψ"), ("Omega", "Ω"), ("infty", "∞"), ("partial", "∂"), ("nabla", "∇"),
   ("emptyset", "∅"), ("hbar", "ℏ"), ("ell", "ℓ"), ("aleph", "ℵ"), ("Re", "ℜ"), ("Im", "ℑ"),
   ("wp", "℘")]

/-- Spaces and their widths in thousandths of an em. -/
def builtinSpaces : List (String × Int) :=
  [(",", 167), ("thinspace", 167), (":", 222), (">", 222), ("medspace", 222), (";", 278),
   ("thickspace", 278), ("!", (-167)), ("negthinspace", (-167)), (" ", 333),
   ("nobreakspace", 333), ("quad", 1000), ("qquad", 2000)]

/-- The table of the commands that are always known. -/
def builtin : Table :=
  let t := builtinFunctions.foldl (fun t f => t.addFunction (utf8 f) (utf8 f)) empty
  let t := builtinOperators.foldl (fun t (name, text) => t.addOperator (utf8 name) (utf8 text)) t
  let t := builtinLetters.foldl (fun t (name, text) => t.addLetter (utf8 name) (utf8 text)) t
  builtinSpaces.foldl (fun t (name, width) => t.addSpace (utf8 name) (.ofThousandths width)) t

end Table

end MathMarkup
