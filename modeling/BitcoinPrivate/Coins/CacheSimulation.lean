import BitcoinPrivate.Coins.CacheRefinement

/-!
Runs on a stack of caches, as the cache simulation test of `test/coins_tests.cpp`
makes them: coins added and spent, read and uncached, layers flushed, pushed and
popped. A run is compared with a flat map of coins that only the writes change.
Writes go to the top layer: a layer written under a cache that already holds the
outpoint is hidden by it.
-/
namespace BitcoinPrivate

/-- An operation of a run; `layer` counts from the top of the stack. -/
inductive CacheOp
  | AddCoin (layer : Nat) (outpoint : COutPoint) (coin : Coin) (possible_overwrite : Bool)
  | SpendCoin (layer : Nat) (outpoint : COutPoint)
  | AccessCoin (layer : Nat) (outpoint : COutPoint)
  | GetCoin (layer : Nat) (outpoint : COutPoint)
  | HaveCoin (layer : Nat) (outpoint : COutPoint)
  | Uncache (layer : Nat) (outpoint : COutPoint)
  | Flush (layer : Nat)
  | Push
  | Pop
  deriving DecidableEq, Repr

section Run

variable {σ : Type} (base : CCoinsViewMethods σ)

/-- Run `f` on layer `i` of a stack of `n` caches, with the stack below the layer
    as its base. -/
def onLayer (f : (m : Nat) → CCoinsViewCache → Layers σ m → Except String (CCoinsViewCache × Layers σ m)) :
    (n : Nat) → Nat → Layers σ n → Except String (Layers σ n)
  | 0, _, _ => .error "no such layer"
  | n + 1, 0, s => f n s.1 s.2
  | n + 1, i + 1, s => (s.1,·) <$> onLayer f n i s.2

/-- One operation on a stack of caches over `base`. A query keeps only the
    caching it does; `Pop` flushes the top layer before it is dropped. -/
def CacheOp.step : (Σ n, Layers σ n) → CacheOp → Except String (Σ n, Layers σ n)
  | ⟨n,s⟩, .AddCoin layer outpoint coin possible_overwrite =>
    Sigma.mk n <$> onLayer (fun _ top rest => (·,rest) <$> top.AddCoin outpoint coin possible_overwrite) n layer s
  | ⟨n,s⟩, .SpendCoin layer outpoint =>
    Sigma.mk n <$> onLayer (fun m top rest => .ok (top.SpendCoin (stackMethods base m) outpoint rest).2) n layer s
  | ⟨n,s⟩, .AccessCoin layer outpoint =>
    Sigma.mk n <$> onLayer (fun m top rest => .ok (top.AccessCoin (stackMethods base m) outpoint rest).2) n layer s
  | ⟨n,s⟩, .GetCoin layer outpoint =>
    Sigma.mk n <$> onLayer (fun m top rest => .ok (top.GetCoin (stackMethods base m) outpoint rest).2) n layer s
  | ⟨n,s⟩, .HaveCoin layer outpoint =>
    Sigma.mk n <$> onLayer (fun m top rest => .ok (top.HaveCoin (stackMethods base m) outpoint rest).2) n layer s
  | ⟨n,s⟩, .Uncache layer outpoint => Sigma.mk n <$> onLayer (fun _ top rest => .ok (top.Uncache outpoint,rest)) n layer s
  | ⟨n,s⟩, .Flush layer => Sigma.mk n <$> onLayer (fun m top rest => top.Flush (stackMethods base m) rest) n layer s
  | ⟨n,s⟩, .Push => .ok ⟨n + 1,((CCoinsViewCache.empty,s) : CCoinsViewCache × Layers σ n)⟩
  | ⟨0,_⟩, .Pop => .error "no layer to pop"
  | ⟨n + 1,s⟩, .Pop => (fun r => ⟨n,r.2⟩) <$> s.1.Flush (stackMethods base n) s.2

def CacheOp.run (s : Σ n, Layers σ n) (ops : List CacheOp) : Except String (Σ n, Layers σ n) :=
  ops.foldlM (CacheOp.step base) s

/-- What `GetCoin`, `HaveCoin` and `AccessCoin` on the top cache answer, when
    there is a cache. -/
def topAnswers : (Σ n, Layers σ n) → COutPoint → Option (Option Coin × Bool × Coin)
  | ⟨0,_⟩, _ => none
  | ⟨n + 1,s⟩, o =>
    some ((s.1.GetCoin (stackMethods base n) o s.2).1,(s.1.HaveCoin (stackMethods base n) o s.2).1,
      (s.1.AccessCoin (stackMethods base n) o s.2).1)

end Run

/-- The flat map of coins and the number of layers under an operation: the
    writes change the map, the rest keeps it. `none` marks what a run may not
    do: use a layer that does not exist, write below the top, add a spent coin,
    or add without `possible_overwrite` where the map has a coin. -/
def CacheOp.refStep : Nat × CoinMap → CacheOp → Option (Nat × CoinMap)
  | (n,ref), .AddCoin layer outpoint coin possible_overwrite =>
    if layer = 0 ∧ 0 < n ∧ coin.IsSpent = false ∧ (possible_overwrite = true ∨ ref outpoint = none) then
      some (n,if coin.out.scriptPubKey.IsUnspendable then ref else Function.update ref outpoint (some coin))
    else none
  | (n,ref), .SpendCoin layer outpoint =>
    if layer = 0 ∧ 0 < n then some (n,Function.update ref outpoint none) else none
  | (n,ref), .AccessCoin layer _ | (n,ref), .GetCoin layer _ | (n,ref), .HaveCoin layer _
  | (n,ref), .Uncache layer _ | (n,ref), .Flush layer =>
    if layer < n then some (n,ref) else none
  | (n,ref), .Push => some (n + 1,ref)
  | (n,ref), .Pop => if 0 < n then some (n - 1,ref) else none

def CacheOp.refRun (s : Nat × CoinMap) (ops : List CacheOp) : Option (Nat × CoinMap) :=
  ops.foldlM CacheOp.refStep s

/-! ## The base of the simulation test -/

/-- `CCoinsViewTest` of `test/coins_tests.cpp`. Of its random choices this takes
    one: a spent coin written into it is kept, and `GetCoin` returns it. The
    nullifier map holds only `true`, as its `assert` checks. -/
structure CCoinsViewTest where
  hashBestBlock_ : uint256
  hashBestAnchor_ : uint256
  map_ : AList fun _ : COutPoint => Coin
  mapAnchors_ : AList fun _ : uint256 => ZCIncrementalMerkleTree
  mapNullifiers_ : AList fun _ : uint256 => Bool

namespace CCoinsViewTest

/-- `CCoinsViewTest()`. -/
def init (combine : uint256 → uint256 → uint256) : CCoinsViewTest :=
  ⟨default,ZCIncrementalMerkleTree.empty_root combine,∅,∅,∅⟩

def methods (combine : uint256 → uint256 → uint256) : CCoinsViewMethods CCoinsViewTest where
  GetCoin t outpoint := (t.map_.lookup outpoint,t)
  GetNullifier t nf := ((t.mapNullifiers_.lookup nf).isSome,t)
  GetAnchorAt t rt :=
    (if rt = ZCIncrementalMerkleTree.empty_root combine then some Zcash.IncrementalMerkleTree.empty
      else t.mapAnchors_.lookup rt,t)
  GetBestBlock t := (t.hashBestBlock_,t)
  GetBestAnchor t := (t.hashBestAnchor_,t)
  BatchWrite t mapCoins hashBlock hashAnchor mapAnchors mapNullifiers := do
    let map_ ← FiniteMap.batch (fun entry stored => .ok (if entry.DIRTY then some entry.coin else stored))
      mapCoins.entries t.map_
    let mapAnchors_ ← FiniteMap.batch (fun entry _ => .ok (if entry.entered then some entry.tree else none))
      mapAnchors.entries t.mapAnchors_
    let mapNullifiers_ ← FiniteMap.batch (fun entry _ => .ok (if entry.entered then some true else none))
      mapNullifiers.entries t.mapNullifiers_
    pure ⟨if hashBlock.IsNull then t.hashBestBlock_ else hashBlock,
      if hashAnchor.IsNull then t.hashBestAnchor_ else hashAnchor,map_,mapAnchors_,mapNullifiers_⟩

/-- The unspent coins of the map. -/
def coins (t : CCoinsViewTest) : CoinMap := fun o => (t.map_.lookup o).bind Coin.asUnspent

/-- The spent coins kept in the map are cleared ones. -/
def Cleared (t : CCoinsViewTest) : Prop := ∀ o coin, t.map_.lookup o = some coin → coin.IsSpent = true → coin = Coin.empty

theorem coinsBase (combine : uint256 → uint256 → uint256) : CoinsBase (methods combine) Cleared coins where
  unspent := by
    intro t o coin _ reported
    obtain ⟨stored,-,unspent⟩ := Option.bind_eq_some_iff.mp reported
    obtain ⟨rfl,spent⟩ := Coin.asUnspent_eq_some.mp unspent
    exact spent
  getCoin := by
    intro t o cleared
    cases stored : t.map_.lookup o with
    | none => exact Or.inl (by simp [methods,coins,stored])
    | some coin =>
      cases spent : coin.IsSpent
      · exact Or.inl (by simp [methods,coins,stored,Coin.asUnspent,spent])
      · exact Or.inr ⟨by simp [coins,stored,Coin.asUnspent,spent],by simp [methods,stored,cleared o coin stored spent]⟩
  getCoin_inv := fun _ _ cleared => cleared
  getCoin_view := fun _ _ _ => rfl
  batchWrite := by
    intro t mapCoins hashBlock hashAnchor mapAnchors mapNullifiers cleared valid
    obtain ⟨map_,coinsDone⟩ := FiniteMap.batch_ok (m := t.map_) mapCoins.nodupKeys
      (f := fun entry stored => (.ok (if entry.DIRTY then some entry.coin else stored) : Except String _)) fun _ _ => ⟨_,rfl⟩
    obtain ⟨anchors,anchorsDone⟩ := FiniteMap.batch_ok (m := t.mapAnchors_) mapAnchors.nodupKeys
      (f := fun entry _ => (.ok (if entry.entered then some entry.tree else none) : Except String _)) fun _ _ => ⟨_,rfl⟩
    obtain ⟨nullifiers,nullifiersDone⟩ := FiniteMap.batch_ok (m := t.mapNullifiers_) mapNullifiers.nodupKeys
      (f := fun entry _ => (.ok (if entry.entered then some true else none) : Except String _)) fun _ _ => ⟨_,rfl⟩
    have keys := FiniteMap.batch_lookup mapCoins.nodupKeys coinsDone
    -- at a key of the child, a dirty entry's coin is stored and a clean one changes nothing
    have written : ∀ o entry, mapCoins.lookup o = some entry →
        map_.lookup o = if entry.DIRTY then some entry.coin else t.map_.lookup o := fun o entry child =>
      (Except.ok.inj ((keys o).1 entry child)).symm
    refine ⟨⟨_,_,map_,anchors,nullifiers⟩,by simp only [methods,coinsDone,anchorsDone,nullifiersDone]; rfl,?_,?_⟩
    · intro o coin stored spent
      cases child : mapCoins.lookup o with
      | none => exact cleared o coin (((keys o).2 child).symm.trans stored) spent
      | some entry =>
        rw [written o entry child] at stored
        cases dirty : entry.DIRTY
        · simp only [dirty] at stored
          exact cleared o coin stored spent
        · simp only [dirty,if_true,Option.some.injEq] at stored
          subst stored
          exact (valid o entry child).cleared spent
    · funext o
      simp only [coins,overlay_apply]
      cases child : mapCoins.lookup o with
      | none => rw [(keys o).2 child,entryView_none]
      | some entry =>
        rw [written o entry child,entryView_some]
        cases dirty : entry.DIRTY
        · simp only [Bool.false_eq_true,if_false]
          exact ((valid o entry child).clean dirty).symm
        · simp

end CCoinsViewTest

/-! ## Every run refines the flat map -/

section Refinement

variable {σ : Type} {base : CCoinsViewMethods σ} {Inv : σ → Prop} {view : σ → CoinMap}

/-- What an operation on one layer keeps: the invariant and the coins of the
    stack from that layer down. -/
def KeepsLayer (Inv : σ → Prop) (view : σ → CoinMap)
    (f : (m : Nat) → CCoinsViewCache → Layers σ m → Except String (CCoinsViewCache × Layers σ m)) : Prop :=
  ∀ m top (rest : Layers σ m), ValidOver top.cacheCoins (stackView view m rest) → stackInv Inv view m rest →
    ∃ top' rest', f m top rest = .ok (top',rest') ∧ ValidOver top'.cacheCoins (stackView view m rest') ∧
      stackInv Inv view m rest' ∧ overlay top'.cacheCoins (stackView view m rest') = overlay top.cacheCoins (stackView view m rest)

/-- An operation on one layer that keeps what `KeepsLayer` says keeps the
    invariant and the coins of the whole stack. -/
theorem onLayer_keeps {f : (m : Nat) → CCoinsViewCache → Layers σ m → Except String (CCoinsViewCache × Layers σ m)}
    (keeps : KeepsLayer Inv view f) :
    ∀ {n i : Nat} {s : Layers σ n}, i < n → stackInv Inv view n s →
      ∃ s', onLayer f n i s = .ok s' ∧ stackInv Inv view n s' ∧ stackView view n s' = stackView view n s
  | 0, _, _, bound, _ => absurd bound (Nat.not_lt_zero _)
  | n + 1, 0, s, _, inv => by
    obtain ⟨top,rest,done,valid,inv',reports⟩ := keeps n s.1 s.2 inv.1 inv.2
    exact ⟨((top,rest) : CCoinsViewCache × Layers σ n),done,⟨valid,inv'⟩,reports⟩
  | n + 1, i + 1, s, bound, inv => by
    obtain ⟨rest,done,inv',reports⟩ := onLayer_keeps keeps (Nat.lt_of_succ_lt_succ bound) inv.2
    refine ⟨((s.1,rest) : CCoinsViewCache × Layers σ n),by simp only [onLayer,done]; rfl,⟨?_,inv'⟩,?_⟩
    · simpa [reports] using inv.1
    · simp [stackView,reports]

variable (lawful : CoinsBase base Inv view)
include lawful

/-- A query is a `FetchCoin` whose answer is dropped. -/
theorem fetch_keeps {f : (m : Nat) → CCoinsViewCache → Layers σ m → Except String (CCoinsViewCache × Layers σ m)}
    {o : COutPoint} (fetches : ∀ m top rest, f m top rest = .ok (top.FetchCoin (stackMethods base m) o rest).2) :
    KeepsLayer Inv view f := by
  intro m top rest valid inv
  obtain ⟨keeps,-,-,-⟩ := top.FetchCoin_spec (stackMethods_coinsBase lawful m) valid inv o
  exact ⟨_,_,fetches m top rest,keeps.valid,keeps.inv,keeps.reports⟩

theorem flush_keeps : KeepsLayer Inv view (fun m top rest => top.Flush (stackMethods base m) rest) := by
  intro m top rest valid inv
  obtain ⟨rest',done,inv',reports⟩ := top.Flush_spec (stackMethods_coinsBase lawful m) valid inv
  exact ⟨_,rest',done,ValidOver.empty _,inv',by simpa using reports⟩

omit lawful in
theorem uncache_keeps (o : COutPoint) : KeepsLayer Inv view (fun _ top rest => .ok (top.Uncache o,rest)) := by
  intro m top rest valid inv
  exact ⟨_,rest,rfl,(top.Uncache_spec valid o).1,inv,(top.Uncache_spec valid o).2⟩

/-- One operation refines one step of the flat map. -/
theorem CacheOp.step_refines {n : Nat} {s : Layers σ n} (inv : stackInv Inv view n s) :
    ∀ {op : CacheOp} {n' : Nat} {ref' : CoinMap}, op.refStep (n,stackView view n s) = some (n',ref') →
      ∃ s', CacheOp.step base ⟨n,s⟩ op = .ok ⟨n',s'⟩ ∧ stackInv Inv view n' s' ∧ stackView view n' s' = ref'
  | .AddCoin layer o coin possible_overwrite, n', ref', allowed => by
    simp only [CacheOp.refStep] at allowed
    obtain ⟨⟨rfl,bound,unspent,overwrite⟩,result⟩ := Option.ite_none_right_eq_some.mp allowed
    obtain ⟨rfl,rfl⟩ := Prod.mk.inj (Option.some.inj result)
    obtain ⟨m,rfl⟩ : ∃ m, n = m + 1 := Nat.exists_eq_succ_of_ne_zero (Nat.pos_iff_ne_zero.mp bound)
    obtain ⟨top,added,valid,reports⟩ := s.1.AddCoin_spec inv.1 unspent overwrite
    refine ⟨((top,s.2) : CCoinsViewCache × Layers σ m),?_,⟨valid,inv.2⟩,reports⟩
    simp only [CacheOp.step,onLayer,added]
    rfl
  | .SpendCoin layer o, n', ref', allowed => by
    simp only [CacheOp.refStep] at allowed
    obtain ⟨⟨rfl,bound⟩,result⟩ := Option.ite_none_right_eq_some.mp allowed
    obtain ⟨rfl,rfl⟩ := Prod.mk.inj (Option.some.inj result)
    obtain ⟨m,rfl⟩ : ∃ m, n = m + 1 := Nat.exists_eq_succ_of_ne_zero (Nat.pos_iff_ne_zero.mp bound)
    obtain ⟨_,top,rest,spent,inv',below,valid,reports,-⟩ :=
      s.1.SpendCoin_spec (stackMethods_coinsBase lawful m) inv.1 inv.2 o
    refine ⟨((top,rest) : CCoinsViewCache × Layers σ m),?_,⟨valid,inv'⟩,reports⟩
    simp only [CacheOp.step,onLayer,spent]
    rfl
  | .AccessCoin layer o, n', ref', allowed => by
    simp only [CacheOp.refStep] at allowed
    obtain ⟨bound,result⟩ := Option.ite_none_right_eq_some.mp allowed
    obtain ⟨rfl,rfl⟩ := Prod.mk.inj (Option.some.inj result)
    obtain ⟨s',done,inv',reports⟩ :=
      onLayer_keeps (f := fun m top rest => .ok (top.AccessCoin (stackMethods base m) o rest).2)
        (fetch_keeps lawful (o := o) fun m top rest => by rw [top.AccessCoin_eq]) bound inv
    exact ⟨s',by simp only [CacheOp.step,done]; rfl,inv',reports⟩
  | .GetCoin layer o, n', ref', allowed => by
    simp only [CacheOp.refStep] at allowed
    obtain ⟨bound,result⟩ := Option.ite_none_right_eq_some.mp allowed
    obtain ⟨rfl,rfl⟩ := Prod.mk.inj (Option.some.inj result)
    obtain ⟨s',done,inv',reports⟩ :=
      onLayer_keeps (f := fun m top rest => .ok (top.GetCoin (stackMethods base m) o rest).2)
        (fetch_keeps lawful (o := o) fun m top rest => by rw [top.GetCoin_eq]) bound inv
    exact ⟨s',by simp only [CacheOp.step,done]; rfl,inv',reports⟩
  | .HaveCoin layer o, n', ref', allowed => by
    simp only [CacheOp.refStep] at allowed
    obtain ⟨bound,result⟩ := Option.ite_none_right_eq_some.mp allowed
    obtain ⟨rfl,rfl⟩ := Prod.mk.inj (Option.some.inj result)
    obtain ⟨s',done,inv',reports⟩ :=
      onLayer_keeps (f := fun m top rest => .ok (top.HaveCoin (stackMethods base m) o rest).2)
        (fetch_keeps lawful (o := o) fun m top rest => by rw [top.HaveCoin_eq]) bound inv
    exact ⟨s',by simp only [CacheOp.step,done]; rfl,inv',reports⟩
  | .Uncache layer o, n', ref', allowed => by
    simp only [CacheOp.refStep] at allowed
    obtain ⟨bound,result⟩ := Option.ite_none_right_eq_some.mp allowed
    obtain ⟨rfl,rfl⟩ := Prod.mk.inj (Option.some.inj result)
    obtain ⟨s',done,inv',reports⟩ := onLayer_keeps (uncache_keeps o) bound inv
    exact ⟨s',by simp only [CacheOp.step,done]; rfl,inv',reports⟩
  | .Flush layer, n', ref', allowed => by
    simp only [CacheOp.refStep] at allowed
    obtain ⟨bound,result⟩ := Option.ite_none_right_eq_some.mp allowed
    obtain ⟨rfl,rfl⟩ := Prod.mk.inj (Option.some.inj result)
    obtain ⟨s',done,inv',reports⟩ := onLayer_keeps (flush_keeps lawful) bound inv
    exact ⟨s',by simp only [CacheOp.step,done]; rfl,inv',reports⟩
  | .Push, n', ref', allowed => by
    obtain ⟨rfl,rfl⟩ := Prod.mk.inj (Option.some.inj allowed)
    exact ⟨((CCoinsViewCache.empty,s) : CCoinsViewCache × Layers σ n),rfl,⟨ValidOver.empty _,inv⟩,
      overlay_empty _⟩
  | .Pop, n', ref', allowed => by
    simp only [CacheOp.refStep] at allowed
    obtain ⟨bound,result⟩ := Option.ite_none_right_eq_some.mp allowed
    obtain ⟨rfl,rfl⟩ := Prod.mk.inj (Option.some.inj result)
    obtain ⟨m,rfl⟩ : ∃ m, n = m + 1 := Nat.exists_eq_succ_of_ne_zero (Nat.pos_iff_ne_zero.mp bound)
    obtain ⟨rest,done,inv',reports⟩ := s.1.Flush_spec (stackMethods_coinsBase lawful m) inv.1 inv.2
    refine ⟨rest,?_,inv',reports⟩
    simp only [CacheOp.step,done]
    rfl

/-- A run refines the flat map: by induction on the operations, each one a step. -/
theorem CacheOp.run_refines : ∀ (ops : List CacheOp) {n : Nat} {s : Layers σ n}, stackInv Inv view n s →
    ∀ {n' : Nat} {ref' : CoinMap}, CacheOp.refRun (n,stackView view n s) ops = some (n',ref') →
      ∃ s', CacheOp.run base ⟨n,s⟩ ops = .ok ⟨n',s'⟩ ∧ stackInv Inv view n' s' ∧ stackView view n' s' = ref'
  | [], n, s, inv, n', ref', allowed => by
    cases allowed
    exact ⟨s,rfl,inv,rfl⟩
  | op :: ops, n, s, inv, n', ref', allowed => by
    obtain ⟨⟨n₁,ref₁⟩,first,rest⟩ := Option.bind_eq_some_iff.mp allowed
    obtain ⟨s₁,stepped,inv₁,reports₁⟩ := CacheOp.step_refines lawful inv first
    rw [← reports₁] at rest
    obtain ⟨s',ran,inv',reports⟩ := CacheOp.run_refines ops inv₁ rest
    exact ⟨s',by simp [CacheOp.run,List.foldlM_cons,stepped]; exact ran,inv',reports⟩

/-- The queries on the top of a valid stack answer with the stack's coins. -/
theorem topAnswers_eq {m : Nat} {s : Layers σ (m + 1)} (inv : stackInv Inv view (m + 1) s) (o : COutPoint) :
    topAnswers base ⟨m + 1,s⟩ o = some (stackView view (m + 1) s o,(stackView view (m + 1) s o).isSome,
      (stackView view (m + 1) s o).getD Coin.empty) := by
  obtain ⟨get,have_,access⟩ := s.1.queries_answer (stackMethods_coinsBase lawful m) inv.1 inv.2 o
  simp only [topAnswers,get,have_,access]
  rfl

theorem cache_stack_refines_flat_map {n : Nat} {s : Layers σ n} (valid : stackInv Inv view n s)
    (ops : List CacheOp) {n' : Nat} {ref' : CoinMap}
    (allowed : CacheOp.refRun (n,stackView view n s) ops = some (n',ref')) :
    ∃ s', CacheOp.run base ⟨n,s⟩ ops = .ok ⟨n',s'⟩ ∧ stackInv Inv view n' s' ∧ stackView view n' s' = ref' ∧
      ∀ o, topAnswers base ⟨n',s'⟩ o =
        if n' = 0 then none else some (ref' o,(ref' o).isSome,(ref' o).getD Coin.empty) := by
  obtain ⟨s',ran,inv',reports⟩ := CacheOp.run_refines lawful ops valid allowed
  refine ⟨s',ran,inv',reports,fun o => ?_⟩
  cases n' with
  | zero => rfl
  | succ m =>
    rw [topAnswers_eq lawful inv' o,reports]
    rfl

end Refinement


/-- A run of the simulation test's kind: a coin added in a layer, flushed from
    under a second layer, spent there and added again, and the top popped. -/
def simulationRun : List CacheOp :=
  [.Push,.AddCoin 0 ⟨default,0⟩ ⟨⟨COIN,[0x51]⟩,false,1⟩ false,.Push,.GetCoin 0 ⟨default,0⟩,.Flush 1,
    .SpendCoin 0 ⟨default,0⟩,.AddCoin 0 ⟨default,0⟩ ⟨⟨2 * COIN,[0x51]⟩,false,2⟩ true,.Pop]

/-- The flat map after `simulationRun`. -/
def simulationMap : CoinMap :=
  Function.update (Function.update (Function.update (CCoinsViewTest.coins (CCoinsViewTest.init fun a _ => a))
    ⟨default,0⟩ (some ⟨⟨COIN,[0x51]⟩,false,1⟩)) ⟨default,0⟩ none) ⟨default,0⟩ (some ⟨⟨2 * COIN,[0x51]⟩,false,2⟩)

theorem cache_stack_refines_simulation_run :
    CoinsBase (CCoinsViewTest.methods fun a _ => a) CCoinsViewTest.Cleared CCoinsViewTest.coins ∧
      stackInv CCoinsViewTest.Cleared CCoinsViewTest.coins 0 (CCoinsViewTest.init fun a _ => a) ∧
      CacheOp.refRun (0,stackView CCoinsViewTest.coins 0 (CCoinsViewTest.init fun a _ => a)) simulationRun =
        some (1,simulationMap) ∧
      ∃ s', CacheOp.run (CCoinsViewTest.methods fun a _ => a) ⟨0,CCoinsViewTest.init fun a _ => a⟩ simulationRun =
          .ok ⟨1,s'⟩ ∧ stackInv CCoinsViewTest.Cleared CCoinsViewTest.coins 1 s' ∧
        stackView CCoinsViewTest.coins 1 s' = simulationMap ∧
        ∀ o, topAnswers (CCoinsViewTest.methods fun a _ => a) ⟨1,s'⟩ o =
          if 1 = 0 then none else some (simulationMap o,(simulationMap o).isSome,(simulationMap o).getD Coin.empty) :=
  have lawful := CCoinsViewTest.coinsBase fun a _ => a
  have empty : stackInv CCoinsViewTest.Cleared CCoinsViewTest.coins 0 (CCoinsViewTest.init fun a _ => a) :=
    fun o coin stored => by simp [CCoinsViewTest.init] at stored
  have allowed : CacheOp.refRun (0,stackView CCoinsViewTest.coins 0 (CCoinsViewTest.init fun a _ => a)) simulationRun =
      some (1,simulationMap) := rfl
  ⟨lawful,empty,allowed,cache_stack_refines_flat_map lawful empty simulationRun allowed⟩

/-- Writes below the top are not what the top reports: after a coin is added on
    the top layer, a second coin added at the same outpoint one layer down stays
    hidden, and the top still reports the first. -/
theorem cache_stack_hides_write_below_top :
    (CacheOp.run (CCoinsViewTest.methods fun a _ => a) ⟨0,CCoinsViewTest.init fun a _ => a⟩
        [.Push,.Push,.AddCoin 0 ⟨default,0⟩ ⟨⟨COIN,[0x51]⟩,false,1⟩ true,
          .AddCoin 1 ⟨default,0⟩ ⟨⟨2 * COIN,[0x51]⟩,false,1⟩ true]).map
        (topAnswers (CCoinsViewTest.methods fun a _ => a) · ⟨default,0⟩) =
      .ok (some (some ⟨⟨COIN,[0x51]⟩,false,1⟩,true,⟨⟨COIN,[0x51]⟩,false,1⟩)) ∧
    (⟨⟨COIN,[0x51]⟩,false,1⟩ : Coin) ≠ ⟨⟨2 * COIN,[0x51]⟩,false,1⟩ :=
  ⟨rfl,by decide⟩

end BitcoinPrivate
