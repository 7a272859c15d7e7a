import Lox.Proofs.Grammar.Recognition

namespace Lox.Expr

-- Goes on as long as an operator of one rank comes next. All that has been read is its left operand.
def extendRank (rank : Rank) (operand : Reader) (left : Front) : Except Fault Front :=
  match _hrest : left.rest with
  | [] => .ok left
  | operator :: tokens =>
    if operator.data.rank? = some rank then
      match _hright : operand.read tokens with
      | .error fault => .error fault
      | .ok right => extendRank rank operand ⟨binary left.expr operator right.expr, right.rest⟩
    else .ok left
termination_by left.rest.length
decreasing_by
  have hright := operand.shorter _hright
  simp only [_hrest, List.length_cons]
  omega

theorem length_of_extendRank {rank : Rank} {operand : Reader} {left front : Front}
    (h : extendRank rank operand left = .ok front) : front.rest.length ≤ left.rest.length := by
  fun_induction extendRank rank operand left with
  | case1 left hrest => simp_all
  | case2 => cases h
  | case3 left operator tokens hrest hrank right hright ih =>
    have hshorter := operand.shorter hright
    have htail := ih h
    simp only [hrest, List.length_cons] at htail ⊢
    omega
  | case4 left operator tokens hrest hrank => simp_all

-- Operands with operators of one rank between them.
def readRank (rank : Rank) (operand : Reader) (tokens : List Token) : Except Fault Front :=
  match operand.read tokens with
  | .error fault => .error fault
  | .ok left => extendRank rank operand left

theorem shorter_of_readRank {rank : Rank} {operand : Reader} {tokens : List Token} {front : Front}
    (h : readRank rank operand tokens = .ok front) : front.rest.length < tokens.length := by
  unfold readRank at h
  split at h
  · cases h
  · rename_i left hleft
    exact Nat.lt_of_le_of_lt (length_of_extendRank h) (operand.shorter hleft)

def rankChain (rank : Rank) (operand : Reader) : Reader :=
  ⟨readRank rank operand, shorter_of_readRank⟩

-- The operands of a rank are chains of the next tighter one.
def operandReader (operand : Reader) : Rank → Reader
  | .factor => operand
  | .term => rankChain .factor (operandReader operand .factor)
  | .comparison => rankChain .term (operandReader operand .term)
  | .equality => rankChain .comparison (operandReader operand .comparison)
termination_by rank => 3 - rank.toNat
decreasing_by all_goals decide

def chainReader (operand : Reader) (rank : Rank) : Reader :=
  rankChain rank (operandReader operand rank)

-- A tree whose own operator, if it has one, binds at least so tightly.
def BindsFrom (level : Nat) (e : Expr) : Prop :=
  ∀ l o r, e = binary l o r → ∃ outer, o.data.rank? = some outer ∧ level ≤ outer.toNat

-- A reader of the phrases that hold together so tightly. It leaves behind only operators that bind
-- more loosely, and reading into a hole is reading such a phrase into it and going on behind it.
structure ReadsLevel (operand reader : Reader) (level : Nat) : Prop where
  binds {tokens : List Token} {front : Front} :
    reader.read tokens = .ok front → BindsFrom level front.expr
  stops {tokens : List Token} {front : Front} : reader.read tokens = .ok front →
    ∀ t ∈ front.rest.head?, ∀ rank, t.data.rank? = some rank → rank.toNat < level
  into (tokens : List Token) {fill : Expr → Expr} : Grammar.HandsOn fill level →
    readInto operand fill tokens =
      (reader.read tokens).bind fun front => extend operand ⟨fill front.expr, front.rest⟩

section Rank

variable {operand reader : Reader} {rank : Rank}

theorem bindsFrom_binary {level : Nat} {l r : Expr} {o : Token} (ho : o.data.rank? = some rank)
    (h : level ≤ rank.toNat) : BindsFrom level (binary l o r) := by
  rintro _ _ _ ⟨⟩
  exact ⟨rank, ho, h⟩

theorem BindsFrom.mono {level less : Nat} {e : Expr} (h : BindsFrom level e) (hle : less ≤ level) :
    BindsFrom less e := by
  intro l o r he
  obtain ⟨outer, ho, hlevel⟩ := h l o r he
  exact ⟨outer, ho, Nat.le_trans hle hlevel⟩

theorem bindsFrom_of_extendRank {left front : Front}
    (h : extendRank rank reader left = .ok front) (hleft : BindsFrom rank.toNat left.expr) :
    BindsFrom rank.toNat front.expr := by
  fun_induction extendRank rank reader left with
  | case1 | case4 =>
    cases h
    exact hleft
  | case2 => cases h
  | case3 left operator tokens hrest hrank right hright ih =>
    exact ih h (bindsFrom_binary hrank (Nat.le_refl _))

-- Where no operator of the rank comes next, a looser one may.
theorem lt_of_extendRank (hreader : ReadsLevel operand reader (rank.toNat + 1)) {left front : Front}
    (h : extendRank rank reader left = .ok front)
    (hleft : ∀ t ∈ left.rest.head?, ∀ other, t.data.rank? = some other →
      other.toNat < rank.toNat + 1) :
    ∀ t ∈ front.rest.head?, ∀ other, t.data.rank? = some other → other.toNat < rank.toNat := by
  fun_induction extendRank rank reader left with
  | case1 left hrest =>
    cases h
    simp [hrest]
  | case2 => cases h
  | case3 left operator tokens hrest hrank right hright ih =>
    have hstops := hreader.stops hright
    exact ih h hstops
  | case4 left operator tokens hrest hrank =>
    cases h
    intro t ht other hother
    have hlt := hleft t ht other hother
    rw [hrest] at ht
    cases ht
    have hne : other.toNat ≠ rank.toNat := by
      apply Grammar.toNat_ne
      rintro rfl
      exact hrank hother
    omega

-- Behind a phrase of the rank there is its own chain of operators first, and then all others.
theorem extend_eq_extendRank (hreader : ReadsLevel operand reader (rank.toNat + 1))
    {fill : Expr → Expr} (hfill : Grammar.HandsOn fill rank.toNat) {left : Front}
    (hleft : BindsFrom rank.toNat left.expr) :
    extend operand ⟨fill left.expr, left.rest⟩ =
      (extendRank rank reader left).bind fun front => extend operand ⟨fill front.expr, front.rest⟩ := by
  -- the operator has its place on top of the phrase, in the same hole
  have hplace {e : Expr} (he : BindsFrom rank.toNat e) (operator : Token) :
      (fill e).attach rank operator = fun r => fill (binary e operator r) := by
    funext r
    rw [hfill e rank operator r (Nat.le_refl _), Grammar.attach_eq_binary operator r he]
  fun_induction extendRank rank reader left with
  | case1 | case4 => rfl
  | case2 left operator tokens hrest hrank fault hright =>
    rw [hrest, extend_operator _ hrank, hplace hleft, hreader.into _ (hfill.binary hrank), hright]
    rfl
  | case3 left operator tokens hrest hrank right hright ih =>
    rw [hrest, extend_operator _ hrank, hplace hleft, hreader.into _ (hfill.binary hrank), hright]
    exact ih (bindsFrom_binary hrank (Nat.le_refl _))

theorem exists_of_readRank {tokens : List Token} {front : Front}
    (h : readRank rank reader tokens = .ok front) :
    ∃ left, reader.read tokens = .ok left ∧ extendRank rank reader left = .ok front := by
  unfold readRank at h
  split at h
  · cases h
  · rename_i left hleft
    exact ⟨left, hleft, h⟩

theorem ReadsLevel.rankChain (hreader : ReadsLevel operand reader (rank.toNat + 1)) :
    ReadsLevel operand (rankChain rank reader) rank.toNat where
  binds h := by
    obtain ⟨left, hleft, hfront⟩ := exists_of_readRank h
    exact bindsFrom_of_extendRank hfront ((hreader.binds hleft).mono (Nat.le_succ _))
  stops h := by
    obtain ⟨left, hleft, hfront⟩ := exists_of_readRank h
    exact lt_of_extendRank hreader hfront (hreader.stops hleft)
  into tokens fill hfill := by
    rw [hreader.into tokens (hfill.mono (Nat.le_succ _))]
    change _ = (readRank rank reader tokens).bind _
    rw [readRank]
    cases hleft : reader.read tokens with
    | error fault => rfl
    | ok left =>
      have hbinds := (hreader.binds hleft).mono (Nat.le_succ _)
      exact extend_eq_extendRank hreader hfill hbinds

end Rank

section Chain

variable {operand : Reader} {limit : Nat}

theorem readsLevel_operand (exact : Grammar.Exact operand limit) :
    ReadsLevel operand operand 4 where
  binds {tokens front} h := by
    obtain ⟨used, -, hderives, -⟩ := exact.sound h
    intro l o r he
    rw [he] at hderives
    exact Grammar.level_le_of_derives hderives
  stops _ t _ rank _ := by cases rank <;> decide
  into tokens fill _ := by
    rw [readInto]
    cases operand.read tokens <;> rfl

theorem readsLevel_operandReader (exact : Grammar.Exact operand limit) (rank : Rank) :
    ReadsLevel operand (operandReader operand rank) (rank.toNat + 1) := by
  fun_induction operandReader operand rank with
  | case1 => exact readsLevel_operand exact
  | case2 ih | case3 ih | case4 ih => exact ReadsLevel.rankChain ih

-- The chains of the four ranks, one inside the other, are the one chain in which every operator
-- finds its place.
theorem read_chainReader (exact : Grammar.Exact operand limit) (tokens : List Token) :
    (chainReader operand .equality).read tokens = readChain operand tokens := by
  have hchain : ReadsLevel operand (chainReader operand .equality) 0 :=
    (readsLevel_operandReader exact .equality).rankChain
  rw [readChain_eq_readInto, hchain.into tokens (Grammar.handsOn_id 0)]
  cases hread : (chainReader operand .equality).read tokens with
  | error fault => rfl
  | ok front =>
    have hstops : Stops front.rest := by
      intro t ht
      cases hrank : t.data.rank? with
      | none => rfl
      | some rank => exact absurd (hchain.stops hread t ht rank hrank) (Nat.not_lt_zero _)
    exact (extend_of_stops operand front.expr hstops).symm

end Chain

end Lox.Expr
