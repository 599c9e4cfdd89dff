import Linewise.Proofs.Document.Updating

/-! Lines further on in a document. The line of a shape at a later start is that at the earlier one with
the same number of bytes added to all its offsets, where there is room for it. -/
namespace Linewise

/-- `u` is `t` with both of its ends `n` bytes further on. -/
structure Token.Displaced (n : Nat) (t u : Token) : Prop where
  kind_eq : u.kind = t.kind
  nesting_eq : u.nesting = t.nesting
  start_eq : u.span.start.toNat = t.span.start.toNat + n
  stop_eq : u.span.stop.toNat = t.span.stop.toNat + n

structure Line.Displaced (n : Nat) (l m : Line) : Prop where
  tokens : List.Forall₂ (Token.Displaced n) l.tokens m.tokens
  continuation_eq : m.continuation = l.continuation
  context_eq : m.context = l.context
  start_eq : m.start.toNat = l.start.toNat + n

theorem Token.Displaced.eq_of_zero {t u : Token} (h : t.Displaced 0 u) : t = u := by
  rcases h with ⟨hkind, hnesting, hstart, hstop⟩
  have hspan : t.span = u.span :=
    Span.ext (UInt64.toNat_inj.1 hstart.symm) (UInt64.toNat_inj.1 hstop.symm)
  cases t
  cases u
  simp_all

theorem Line.Displaced.eq_of_zero {l m : Line} (h : l.Displaced 0 m) : l = m := by
  rcases h with ⟨htokens, hcontinuation, hcontext, hstart⟩
  have hequal := htokens.imp fun _ _ => Token.Displaced.eq_of_zero
  rw [List.forall₂_eq_eq_eq] at hequal
  have hplace : l.start = m.start := UInt64.toNat_inj.1 hstart.symm
  cases l
  cases m
  simp_all

theorem Token.displaced_shift {t : Token} {start start' : Offset} {n : Nat}
    (hstart : start'.toNat = start.toNat + n) (h : t.Reaches start') :
    (t.shift start).Displaced n (t.shift start') := by
  have hsum {x o : Offset} (hfit : o.toNat + x.toNat < UInt64.size) :
      (x + o).toNat = x.toNat + o.toNat := by
    rw [UInt64.toNat_add]
    exact Nat.mod_eq_of_lt (show x.toNat + o.toNat < UInt64.size by omega)
  have hmove {x : Offset} (hfit : start'.toNat + x.toNat < UInt64.size) :
      (x + start').toNat = (x + start).toNat + n := by
    rw [hsum hfit, hsum (by omega), hstart, Nat.add_assoc]
  exact ⟨rfl, rfl, hmove h.1, hmove h.2⟩

theorem Shape.displaced_lineAt {x : Shape} {start start' : Offset} {n : Nat}
    (hstart : start'.toNat = start.toNat + n) (h : x.Reaches start') :
    (x.lineAt start).Displaced n (x.lineAt start') := by
  refine ⟨?_, rfl, rfl, hstart⟩
  unfold lineAt
  rw [List.forall₂_map_left_iff, List.forall₂_map_right_iff, List.forall₂_same]
  intro t ht
  exact Token.displaced_shift hstart (h t ht)

theorem displaced_zipWith {xs : List Shape} {starts starts' : List Offset} {n : Nat}
    (hreach : List.Forall₂ Shape.Reaches xs starts')
    (hstart : List.Forall₂ (fun start start' => start'.toNat = start.toNat + n) starts starts') :
    List.Forall₂ (Line.Displaced n) (List.zipWith Shape.lineAt xs starts)
      (List.zipWith Shape.lineAt xs starts') := by
  induction hstart generalizing xs with
  | nil => simp
  | cons hfirst _ ih =>
    cases hreach with
    | cons hx hxs => exact .cons (Shape.displaced_lineAt hfirst hx) (ih hxs)

variable {σ : Type} {t : Tokenizer σ} {states : σ → Prop} {rule : Rule}

/-- With other endings the lines of a document are as much further on as the endings before them are
wider. -/
theorem FollowsRule.displaced_document (ht : FollowsRule t states rule) {s : σ} (hs : states s)
    {texts : List String} {endings endings' : List Nat} (hfit : extent texts endings' < UInt64.size)
    {j n : Nat} (hwider : extent (texts.take j) endings' = extent (texts.take j) endings + n)
    {l m : Line} (hl : (rule.document texts endings).lines[j]? = some l)
    (hm : (rule.document texts endings').lines[j]? = some m) : l.Displaced n m := by
  rcases List.getElem?_zipWith_eq_some.1 hl with ⟨x, start, hx, hstart, rfl⟩
  rcases List.getElem?_zipWith_eq_some.1 hm with ⟨y, start', hy, hstart', rfl⟩
  have hxy : y = x := Option.some.inj (hy.symm.trans hx)
  have hroom : List.Forall₂ HasRoom texts (startsFrom 0 texts endings') :=
    startsFrom_hasRoom (by omega)
  have huse := ht.shapes_usable hroom ⟨_, ht.reset hs⟩ .null
  rcases List.getElem?_eq_some_iff.1 hx with ⟨hjx, hget⟩
  rcases List.getElem?_eq_some_iff.1 hstart' with ⟨hjs, hget'⟩
  have hreach : x.Reaches start' := by
    have hall := huse.get hjx hjs
    rw [List.get_eq_getElem, List.get_eq_getElem, hget, hget'] at hall
    exact hall.1
  have hlen : j < texts.length := by rwa [length_startsFrom] at hjs
  have hle := extent_take_le texts endings' j
  rw [getElem?_startsFrom, if_pos hlen, Nat.zero_add, Option.some.injEq] at hstart hstart'
  rw [hxy]
  apply Shape.displaced_lineAt _ hreach
  rw [← hstart, ← hstart', UInt64.toNat_ofNat_of_lt' (by omega), UInt64.toNat_ofNat_of_lt' (by omega),
    hwider]

end Linewise
