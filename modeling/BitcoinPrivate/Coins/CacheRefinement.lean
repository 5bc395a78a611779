import BitcoinPrivate.Coins.Cache

/-!
What a cache reports: the coins of its entries over the coins of its base, a map
from outpoints to unspent coins. The invariant of `coins.h` on the flags makes a
cache valid over its base: a `FRESH` entry has no unspent coin below it, an entry
that is not `DIRTY` holds the coin below it, and a spent entry holds the cleared
coin. Over a base that answers from its coins and writes what it is given, a
valid cache is again such a base; so is every stack of valid caches.
-/
namespace BitcoinPrivate

/-- A flat map of unspent coins. -/
abbrev CoinMap := COutPoint → Option Coin

/-- What an entry, or its absence, reports over the coin below. -/
def entryView : Option CCoinsCacheEntry → Option Coin → Option Coin
  | some entry, _ => entry.coin.asUnspent
  | none, below => below

@[simp] theorem entryView_none (below : Option Coin) : entryView none below = below := rfl

@[simp] theorem entryView_some (entry : CCoinsCacheEntry) (below : Option Coin) :
    entryView (some entry) below = entry.coin.asUnspent := rfl

/-- The coins a map of entries reports over the coins below it. -/
def overlay (m : CCoinsMap) (below : CoinMap) : CoinMap := fun o => entryView (m.lookup o) (below o)

/-- The invariant of one entry over the coin below it. -/
structure CCoinsCacheEntry.Valid (below : Option Coin) (entry : CCoinsCacheEntry) : Prop where
  fresh : entry.FRESH = true → below = none
  clean : entry.DIRTY = false → entry.coin.asUnspent = below
  cleared : entry.coin.IsSpent = true → entry.coin = Coin.empty

/-- Every entry of the map is valid over the coin below it. -/
def ValidOver (m : CCoinsMap) (below : CoinMap) : Prop :=
  ∀ o entry, m.lookup o = some entry → entry.Valid (below o)

/-- A base whose coins are `view`, on the states that satisfy `Inv`: `GetCoin`
    answers from the view, or with the cleared coin where the view has none, and
    changes neither; `BatchWrite` of a map valid over the view succeeds and
    leaves the map's coins over the view. -/
structure CoinsBase {σ : Type} (base : CCoinsViewMethods σ) (Inv : σ → Prop) (view : σ → CoinMap) : Prop where
  unspent : ∀ b o coin, Inv b → view b o = some coin → coin.IsSpent = false
  getCoin : ∀ b o, Inv b →
    (base.GetCoin b o).1 = view b o ∨ view b o = none ∧ (base.GetCoin b o).1 = some Coin.empty
  getCoin_inv : ∀ b o, Inv b → Inv (base.GetCoin b o).2
  getCoin_view : ∀ b o, Inv b → view (base.GetCoin b o).2 = view b
  batchWrite : ∀ b mapCoins hashBlock hashAnchor mapAnchors mapNullifiers, Inv b → ValidOver mapCoins (view b) →
    ∃ b', base.BatchWrite b mapCoins hashBlock hashAnchor mapAnchors mapNullifiers = .ok b' ∧ Inv b' ∧
      view b' = overlay mapCoins (view b)

/-! ## Coins, entries and maps -/

theorem Coin.asUnspent_eq_some {coin coin' : Coin} : coin.asUnspent = some coin' ↔ coin' = coin ∧ coin.IsSpent = false := by
  unfold Coin.asUnspent
  cases coin.IsSpent <;> simp [eq_comm]

theorem Coin.asUnspent_eq_none {coin : Coin} : coin.asUnspent = none ↔ coin.IsSpent = true := by
  unfold Coin.asUnspent
  cases coin.IsSpent <;> simp

@[simp] theorem Coin.asUnspent_Clear (coin : Coin) : coin.Clear.asUnspent = none := rfl

theorem overlay_apply (m : CCoinsMap) (below : CoinMap) (o : COutPoint) :
    overlay m below o = entryView (m.lookup o) (below o) := rfl

@[simp] theorem overlay_empty (below : CoinMap) : overlay ∅ below = below := by
  funext o
  simp [overlay,entryView]

theorem overlay_insert (m : CCoinsMap) (below : CoinMap) (o : COutPoint) (entry : CCoinsCacheEntry) :
    overlay (m.insert o entry) below = Function.update (overlay m below) o entry.coin.asUnspent := by
  funext o'
  by_cases same : o' = o
  · subst same
    simp [overlay,entryView]
  · simp [overlay,same]

theorem overlay_erase (m : CCoinsMap) (below : CoinMap) (o : COutPoint) :
    overlay (m.erase o) below = Function.update (overlay m below) o (below o) := by
  funext o'
  by_cases same : o' = o
  · subst same
    simp [overlay,entryView]
  · simp [overlay,same]

theorem ValidOver.empty (below : CoinMap) : ValidOver ∅ below := by
  intro o entry found
  simp at found

theorem ValidOver.insert {m : CCoinsMap} {below : CoinMap} (valid : ValidOver m below) {o : COutPoint}
    {entry : CCoinsCacheEntry} (new : entry.Valid (below o)) : ValidOver (m.insert o entry) below := by
  intro o' entry' found
  by_cases same : o' = o
  · subst same
    simp only [FiniteMap.lookup_insert_ite,if_true,Option.some.injEq] at found
    exact found ▸ new
  · simp only [FiniteMap.lookup_insert_ite,same,if_false] at found
    exact valid o' entry' found

theorem ValidOver.erase {m : CCoinsMap} {below : CoinMap} (valid : ValidOver m below) (o : COutPoint) :
    ValidOver (m.erase o) below := by
  intro o' entry found
  by_cases same : o' = o
  · simp [same] at found
  · simp only [FiniteMap.lookup_erase_ite,same,if_false] at found
    exact valid o' entry found

/-- A valid entry that is spent reports nothing and holds the cleared coin. -/
theorem CCoinsCacheEntry.Valid.access {entry : CCoinsCacheEntry} {below : Option Coin} (valid : entry.Valid below) :
    entry.coin = (entry.coin.asUnspent).getD Coin.empty := by
  cases spent : entry.coin.IsSpent
  · simp [Coin.asUnspent,spent]
  · simp [Coin.asUnspent,valid.cleared spent,Coin.IsSpent_empty]

/-! ## `BatchWrite` -/

/-- The coins loop at one key: a child entry that is valid over what the parent
    reports cannot hit the `FRESH` error, and the parent's entry becomes one that
    is valid over the coin below the parent and reports the child's coin. -/
theorem CCoinsCacheEntry.writeInto_spec {child : CCoinsCacheEntry} {parent : Option CCoinsCacheEntry}
    {below : Option Coin} (validParent : ∀ p, parent = some p → p.Valid below)
    (validChild : child.Valid (entryView parent below)) :
    ∃ r, child.writeInto parent = .ok r ∧ (∀ p, r = some p → p.Valid below) ∧
      entryView r below = child.coin.asUnspent := by
  unfold CCoinsCacheEntry.writeInto
  cases dirty : child.DIRTY
  · exact ⟨parent,rfl,validParent,(validChild.clean dirty).symm⟩
  cases parent with
  | none =>
    by_cases dropped : child.FRESH = true ∧ child.coin.IsSpent = true
    · refine ⟨none,by simp [dropped],by simp,?_⟩
      have nothing : below = none := validChild.fresh dropped.1
      simp [nothing,Coin.asUnspent_eq_none.mpr dropped.2]
    · refine ⟨some ⟨child.coin,true,child.FRESH⟩,by simpa using dropped,?_,rfl⟩
      rintro p ⟨⟩
      exact ⟨validChild.fresh,by simp,validChild.cleared⟩
  | some itUs =>
    have reported : itUs.coin.asUnspent = entryView (some itUs) below := rfl
    have valid := validParent itUs rfl
    by_cases misapplied : child.FRESH = true ∧ itUs.coin.IsSpent = false
    · have nothing := validChild.fresh misapplied.1
      rw [← reported,Coin.asUnspent_eq_none] at nothing
      simp [misapplied.2] at nothing
    by_cases pruned : itUs.FRESH = true ∧ child.coin.IsSpent = true
    · refine ⟨none,by simp [misapplied,pruned],by simp,?_⟩
      simp [valid.fresh pruned.1,Coin.asUnspent_eq_none.mpr pruned.2]
    · refine ⟨some { itUs with coin := child.coin, DIRTY := true },by simp [misapplied,pruned],?_,rfl⟩
      rintro p ⟨⟩
      exact ⟨valid.fresh,by simp,validChild.cleared⟩

theorem CAnchorsCacheEntry.writeInto_ok (child : CAnchorsCacheEntry) (parent : Option CAnchorsCacheEntry) :
    ∃ r, child.writeInto parent = .ok r := by
  unfold CAnchorsCacheEntry.writeInto
  split
  · exact ⟨_,rfl⟩
  · split
    · exact ⟨_,rfl⟩
    · split <;> exact ⟨_,rfl⟩

theorem CNullifiersCacheEntry.writeInto_ok (child : CNullifiersCacheEntry) (parent : Option CNullifiersCacheEntry) :
    ∃ r, child.writeInto parent = .ok r := by
  unfold CNullifiersCacheEntry.writeInto
  split
  · exact ⟨_,rfl⟩
  · split
    · exact ⟨_,rfl⟩
    · split <;> exact ⟨_,rfl⟩

/-- `BatchWrite` from a child that is valid over this cache succeeds; the cache
    stays valid and reports the child's coins. -/
theorem CCoinsViewCache.BatchWrite_coins {cache : CCoinsViewCache} {below : CoinMap}
    (validParent : ValidOver cache.cacheCoins below) {mapCoins : CCoinsMap}
    (validChild : ValidOver mapCoins (overlay cache.cacheCoins below)) (hashBlockIn hashAnchorIn : uint256)
    (mapAnchors : CAnchorsMap) (mapNullifiers : CNullifiersMap) :
    ∃ cache', cache.BatchWrite mapCoins hashBlockIn hashAnchorIn mapAnchors mapNullifiers = .ok cache' ∧
      ValidOver cache'.cacheCoins below ∧ overlay cache'.cacheCoins below = overlay mapCoins (overlay cache.cacheCoins below) ∧
      cache'.hashBlock = hashBlockIn ∧ cache'.hashAnchor = hashAnchorIn := by
  have atKey : ∀ e ∈ mapCoins.entries, ∃ r, e.2.writeInto (cache.cacheCoins.lookup e.1) = .ok r ∧
      (∀ p, r = some p → p.Valid (below e.1)) ∧ entryView r (below e.1) = e.2.coin.asUnspent := by
    intro e mem
    have found : mapCoins.lookup e.1 = some e.2 := AList.mem_lookup_iff.mpr mem
    exact CCoinsCacheEntry.writeInto_spec (validParent e.1) (validChild e.1 e.2 found)
  obtain ⟨coins,coinsDone⟩ := FiniteMap.batch_ok mapCoins.nodupKeys fun e mem =>
    (atKey e mem).imp fun r spec => spec.1
  obtain ⟨anchors,anchorsDone⟩ := FiniteMap.batch_ok mapAnchors.nodupKeys fun e _ =>
    CAnchorsCacheEntry.writeInto_ok e.2 (cache.cacheAnchors.lookup e.1)
  obtain ⟨nullifiers,nullifiersDone⟩ := FiniteMap.batch_ok mapNullifiers.nodupKeys fun e _ =>
    CNullifiersCacheEntry.writeInto_ok e.2 (cache.cacheNullifiers.lookup e.1)
  refine ⟨⟨hashBlockIn,coins,hashAnchorIn,anchors,nullifiers⟩,?_,?_,?_,rfl,rfl⟩
  · simp only [CCoinsViewCache.BatchWrite,coinsDone,anchorsDone,nullifiersDone]
    rfl
  -- at each key the batch left either the child's update or the parent's entry
  all_goals
    have keys := FiniteMap.batch_lookup mapCoins.nodupKeys coinsDone
  · intro o entry found
    cases child : mapCoins.lookup o with
    | none =>
      rw [(keys o).2 child] at found
      exact validParent o entry found
    | some c =>
      obtain ⟨r,wrote,valid,_⟩ := atKey ⟨o,c⟩ (AList.mem_lookup_iff.mp child)
      have same := ((keys o).1 c child).symm.trans wrote
      cases same
      exact valid entry found
  · funext o
    cases child : mapCoins.lookup o with
    | none => simp [overlay_apply,child,(keys o).2 child]
    | some c =>
      obtain ⟨r,wrote,_,reports⟩ := atKey ⟨o,c⟩ (AList.mem_lookup_iff.mp child)
      have same := ((keys o).1 c child).symm.trans wrote
      cases same
      simpa [overlay_apply,child] using reports

/-! ## The methods of one cache over a lawful base -/

section Layer

variable {σ : Type} {base : CCoinsViewMethods σ} {Inv : σ → Prop} {view : σ → CoinMap}

/-- What a query keeps of a cache and its base: the invariants, the coins the
    base reports and the coins the cache reports. -/
structure Keeps (Inv : σ → Prop) (view : σ → CoinMap) (before after : CCoinsViewCache × σ) : Prop where
  inv : Inv after.2
  valid : ValidOver after.1.cacheCoins (view after.2)
  below : view after.2 = view before.2
  reports : overlay after.1.cacheCoins (view after.2) = overlay before.1.cacheCoins (view before.2)

/-- `FetchCoin` on a valid cache over a lawful base keeps what a query keeps and
    changes only the coins map; it answers with the entry the cache then holds,
    and finds nothing only where the base has nothing. -/
theorem CCoinsViewCache.FetchCoin_spec (lawful : CoinsBase base Inv view) {cache : CCoinsViewCache} {b : σ}
    (valid : ValidOver cache.cacheCoins (view b)) (inv : Inv b) (o : COutPoint) :
    Keeps Inv view (cache,b) (cache.FetchCoin base o b).2 ∧
      (cache.FetchCoin base o b).1 = (cache.FetchCoin base o b).2.1.cacheCoins.lookup o ∧
      ((cache.FetchCoin base o b).1 = none → view b o = none) ∧
      (cache.FetchCoin base o b).2.1 = { cache with cacheCoins := (cache.FetchCoin base o b).2.1.cacheCoins } := by
  cases cached : cache.cacheCoins.lookup o with
  | some entry =>
    have hit : cache.FetchCoin base o b = (some entry,cache,b) := by simp [CCoinsViewCache.FetchCoin,cached]
    rw [hit]
    exact ⟨⟨inv,valid,rfl,rfl⟩,cached.symm,by simp,rfl⟩
  | none =>
    have answer := lawful.getCoin b o inv
    have keepsInv := lawful.getCoin_inv b o inv
    have keepsView := lawful.getCoin_view b o inv
    rcases fetched : base.GetCoin b o with ⟨_ | tmp,b'⟩ <;>
      simp only [fetched] at answer keepsInv keepsView
    · have miss : cache.FetchCoin base o b = (none,cache,b') := by simp [CCoinsViewCache.FetchCoin,cached,fetched]
      have nothing : view b o = none := by
        rcases answer with found | ⟨_,wrong⟩
        · exact found.symm
        · cases wrong
      rw [miss]
      exact ⟨⟨keepsInv,keepsView ▸ valid,keepsView,by rw [keepsView]⟩,cached.symm,fun _ => nothing,rfl⟩
    · have fill : cache.FetchCoin base o b = (some ⟨tmp,false,tmp.IsSpent⟩,
          { cache with cacheCoins := cache.cacheCoins.insert o ⟨tmp,false,tmp.IsSpent⟩ },b') := by
        simp [CCoinsViewCache.FetchCoin,cached,fetched]
      rw [fill]
      have fetchedValid : CCoinsCacheEntry.Valid (view b o) ⟨tmp,false,tmp.IsSpent⟩ := by
        rcases answer with found | ⟨nothing,empty⟩
        · have unspent := lawful.unspent b o tmp inv found.symm
          exact ⟨by simp [unspent],fun _ => by simp [Coin.asUnspent,unspent,found],by simp [unspent]⟩
        · cases empty
          exact ⟨fun _ => nothing,fun _ => by simp [nothing,Coin.asUnspent,Coin.IsSpent_empty],fun _ => rfl⟩
      have reported : tmp.asUnspent = overlay cache.cacheCoins (view b) o := by
        simpa [overlay_apply,cached] using fetchedValid.clean rfl
      refine ⟨⟨keepsInv,?_,keepsView,?_⟩,by simp,by simp,rfl⟩
      · rw [keepsView]
        exact valid.insert fetchedValid
      · rw [keepsView,overlay_insert,reported,Function.update_eq_self]

/-- An entry that `FetchCoin` answers with reports what the cache reported, and is valid. -/
theorem CCoinsViewCache.FetchCoin_found (lawful : CoinsBase base Inv view) {cache : CCoinsViewCache} {b : σ}
    (valid : ValidOver cache.cacheCoins (view b)) (inv : Inv b) {o : COutPoint} {entry : CCoinsCacheEntry}
    (found : (cache.FetchCoin base o b).1 = some entry) :
    entry.coin.asUnspent = overlay cache.cacheCoins (view b) o ∧ entry.Valid (view b o) := by
  obtain ⟨keeps,answer,_,_⟩ := cache.FetchCoin_spec lawful valid inv o
  have held := answer.symm.trans found
  have reports := congrFun keeps.reports o
  rw [overlay_apply,held,entryView_some] at reports
  exact ⟨reports,keeps.below ▸ keeps.valid o entry held⟩

theorem CCoinsViewCache.FetchCoin_missing (lawful : CoinsBase base Inv view) {cache : CCoinsViewCache} {b : σ}
    (valid : ValidOver cache.cacheCoins (view b)) (inv : Inv b) {o : COutPoint}
    (missing : (cache.FetchCoin base o b).1 = none) : overlay cache.cacheCoins (view b) o = none := by
  obtain ⟨keeps,answer,nothing,_⟩ := cache.FetchCoin_spec lawful valid inv o
  have reports := congrFun keeps.reports o
  rw [overlay_apply,← answer,missing,entryView_none,keeps.below] at reports
  exact reports.symm.trans (nothing missing)

theorem CCoinsViewCache.GetCoin_eq (cache : CCoinsViewCache) (b : σ) (o : COutPoint) :
    cache.GetCoin base o b = ((cache.FetchCoin base o b).1.bind (·.coin.asUnspent),(cache.FetchCoin base o b).2) := by
  unfold CCoinsViewCache.GetCoin
  cases cache.FetchCoin base o b with
  | mk it rest => cases it <;> rfl

theorem CCoinsViewCache.AccessCoin_eq (cache : CCoinsViewCache) (b : σ) (o : COutPoint) :
    cache.AccessCoin base o b = (((cache.FetchCoin base o b).1.map (·.coin)).getD Coin.empty,(cache.FetchCoin base o b).2) := by
  unfold CCoinsViewCache.AccessCoin
  cases cache.FetchCoin base o b with
  | mk it rest => cases it <;> rfl

theorem CCoinsViewCache.HaveCoin_eq (cache : CCoinsViewCache) (b : σ) (o : COutPoint) :
    cache.HaveCoin base o b = ((cache.FetchCoin base o b).1.any (!·.coin.IsSpent),(cache.FetchCoin base o b).2) := by
  unfold CCoinsViewCache.HaveCoin
  cases cache.FetchCoin base o b with
  | mk it rest => cases it <;> rfl

/-- The three coin queries answer with what the cache reports. -/
theorem CCoinsViewCache.queries_answer (lawful : CoinsBase base Inv view) {cache : CCoinsViewCache} {b : σ}
    (valid : ValidOver cache.cacheCoins (view b)) (inv : Inv b) (o : COutPoint) :
    (cache.GetCoin base o b).1 = overlay cache.cacheCoins (view b) o ∧
      (cache.HaveCoin base o b).1 = (overlay cache.cacheCoins (view b) o).isSome ∧
      (cache.AccessCoin base o b).1 = (overlay cache.cacheCoins (view b) o).getD Coin.empty := by
  rw [cache.GetCoin_eq,cache.HaveCoin_eq,cache.AccessCoin_eq]
  cases it : (cache.FetchCoin base o b).1 with
  | none => simp [cache.FetchCoin_missing lawful valid inv it]
  | some entry =>
    obtain ⟨reports,entryValid⟩ := cache.FetchCoin_found lawful valid inv it
    rw [← reports]
    refine ⟨rfl,?_,entryValid.access⟩
    cases spent : entry.coin.IsSpent <;> simp [Coin.asUnspent,spent]

/-- A valid cache over a lawful base is a lawful base for the layer above. -/
theorem CCoinsViewCache.coinsBase (lawful : CoinsBase base Inv view) :
    CoinsBase (CCoinsViewCache.methods base) (fun s => ValidOver s.1.cacheCoins (view s.2) ∧ Inv s.2)
      (fun s => overlay s.1.cacheCoins (view s.2)) where
  unspent := by
    rintro ⟨cache,b⟩ o coin ⟨_,inv⟩ reported
    simp only [overlay_apply] at reported
    cases cached : cache.cacheCoins.lookup o with
    | some entry =>
      rw [cached,entryView_some,Coin.asUnspent_eq_some] at reported
      exact reported.1 ▸ reported.2
    | none =>
      rw [cached,entryView_none] at reported
      exact lawful.unspent b o coin inv reported
  getCoin := by
    rintro ⟨cache,b⟩ o ⟨valid,inv⟩
    left
    rw [← (cache.queries_answer lawful valid inv o).1]
    rfl
  getCoin_inv := by
    rintro ⟨cache,b⟩ o ⟨valid,inv⟩
    have keeps := (cache.FetchCoin_spec lawful valid inv o).1
    simp only [CCoinsViewCache.methods,cache.GetCoin_eq]
    exact ⟨keeps.valid,keeps.inv⟩
  getCoin_view := by
    rintro ⟨cache,b⟩ o ⟨valid,inv⟩
    have keeps := (cache.FetchCoin_spec lawful valid inv o).1
    simp only [CCoinsViewCache.methods,cache.GetCoin_eq]
    exact keeps.reports
  batchWrite := by
    rintro ⟨cache,b⟩ mapCoins hashBlock hashAnchor mapAnchors mapNullifiers ⟨valid,inv⟩ validChild
    obtain ⟨cache',done,valid',reports,-,-⟩ :=
      cache.BatchWrite_coins valid validChild hashBlock hashAnchor mapAnchors mapNullifiers
    refine ⟨(cache',b),?_,⟨valid',inv⟩,reports⟩
    simp only [CCoinsViewCache.methods,done]
    rfl

/-- `SpendCoin` on a valid cache over a lawful base: the outpoint reports
    nothing afterwards, and a coin it reported is the one moved out. -/
theorem CCoinsViewCache.SpendCoin_spec (lawful : CoinsBase base Inv view) {cache : CCoinsViewCache} {b : σ}
    (valid : ValidOver cache.cacheCoins (view b)) (inv : Inv b) (o : COutPoint) :
    ∃ moved cache' b', cache.SpendCoin base o b = (moved,cache',b') ∧ Inv b' ∧ view b' = view b ∧
      ValidOver cache'.cacheCoins (view b') ∧
      overlay cache'.cacheCoins (view b') = Function.update (overlay cache.cacheCoins (view b)) o none ∧
      ∀ coin, overlay cache.cacheCoins (view b) o = some coin → moved = some coin := by
  obtain ⟨keeps,answer,_,_⟩ := cache.FetchCoin_spec lawful valid inv o
  have found := @CCoinsViewCache.FetchCoin_found _ _ _ _ lawful _ _ valid inv o
  have missing := @CCoinsViewCache.FetchCoin_missing _ _ _ _ lawful _ _ valid inv o
  unfold CCoinsViewCache.SpendCoin
  generalize cache.FetchCoin base o b = r at keeps answer found missing
  obtain ⟨it,cache₁,b₁⟩ := r
  obtain ⟨inv₁,valid₁,below,reports⟩ := keeps
  simp only at inv₁ valid₁ below reports answer found missing
  cases it with
  | none =>
    have nothing := missing rfl
    refine ⟨none,cache₁,b₁,rfl,inv₁,below,valid₁,?_,by simp [nothing]⟩
    rw [reports,eq_comm,Function.update_eq_self_iff,nothing]
  | some entry =>
    obtain ⟨reported,entryValid⟩ := found rfl
    have moved : ∀ coin, overlay cache.cacheCoins (view b) o = some coin → some entry.coin = some coin := by
      intro coin reportsCoin
      rw [← reported,Coin.asUnspent_eq_some] at reportsCoin
      rw [reportsCoin.1]
    cases fresh : entry.FRESH
    · refine ⟨some entry.coin,{ cache₁ with cacheCoins := cache₁.cacheCoins.insert o ({ entry with coin := entry.coin.Clear, DIRTY := true }) },
        b₁,by simp [fresh],inv₁,below,?_,?_,moved⟩
      · refine valid₁.insert ⟨by simp [fresh],by simp,fun _ => rfl⟩
      · simp only
        rw [overlay_insert,reports]
        rfl
    · refine ⟨some entry.coin,{ cache₁ with cacheCoins := cache₁.cacheCoins.erase o },b₁,by simp [fresh],inv₁,below,
        valid₁.erase o,?_,moved⟩
      simp only
      rw [overlay_erase,reports,below,entryValid.fresh fresh]

/-- `Flush` of a valid cache into a lawful base: the base then reports what the
    cache did, and the cache's maps are empty. -/
theorem CCoinsViewCache.Flush_spec (lawful : CoinsBase base Inv view) {cache : CCoinsViewCache} {b : σ}
    (valid : ValidOver cache.cacheCoins (view b)) (inv : Inv b) :
    ∃ b', cache.Flush base b = .ok ({ cache with cacheCoins := ∅, cacheAnchors := ∅, cacheNullifiers := ∅ },b') ∧
      Inv b' ∧ view b' = overlay cache.cacheCoins (view b) := by
  obtain ⟨b',written,inv',reports⟩ := lawful.batchWrite b cache.cacheCoins cache.hashBlock cache.hashAnchor
    cache.cacheAnchors cache.cacheNullifiers inv valid
  refine ⟨b',?_,inv',reports⟩
  simp only [CCoinsViewCache.Flush,written]
  rfl

end Layer

/-! ## Writes that do not reach the base -/

/-- `AddCoin` of an unspent coin, with `possible_overwrite` or where the cache
    reports no coin, succeeds; the cache stays valid and reports the coin, unless
    its script is unspendable and nothing changes. -/
theorem CCoinsViewCache.AddCoin_spec {cache : CCoinsViewCache} {below : CoinMap}
    (valid : ValidOver cache.cacheCoins below) {o : COutPoint} {coin : Coin} {possible_overwrite : Bool}
    (unspent : coin.IsSpent = false) (allowed : possible_overwrite = true ∨ overlay cache.cacheCoins below o = none) :
    ∃ cache', cache.AddCoin o coin possible_overwrite = .ok cache' ∧ ValidOver cache'.cacheCoins below ∧
      overlay cache'.cacheCoins below = if coin.out.scriptPubKey.IsUnspendable then overlay cache.cacheCoins below
        else Function.update (overlay cache.cacheCoins below) o (some coin) := by
  unfold CCoinsViewCache.AddCoin
  cases unspendable : coin.out.scriptPubKey.IsUnspendable
  case true => exact ⟨cache,by simp [unspent],valid,by simp⟩
  -- the entry `emplace` finds or makes, and what the flags it carries say below it
  obtain ⟨it,itDef,itFresh,itSpent,itClean⟩ : ∃ it : CCoinsCacheEntry,
      (cache.cacheCoins.lookup o).getD CCoinsCacheEntry.empty = it ∧ (it.FRESH = true → below o = none) ∧
      (possible_overwrite = false → it.coin.IsSpent = true) ∧
      (possible_overwrite = false → it.DIRTY = false → below o = none) := by
    cases cached : cache.cacheCoins.lookup o with
    | none =>
      have nothing : possible_overwrite = false → below o = none := fun kept => by
        simpa [kept,overlay_apply,cached] using allowed
      exact ⟨_,rfl,by simp [CCoinsCacheEntry.empty],fun _ => Coin.IsSpent_empty,fun kept _ => nothing kept⟩
    | some entry =>
      have entryValid := valid o entry cached
      have spent : possible_overwrite = false → entry.coin.IsSpent = true := fun kept => by
        simpa [kept,overlay_apply,cached,Coin.asUnspent_eq_none] using allowed
      refine ⟨entry,rfl,entryValid.fresh,spent,fun kept clean => ?_⟩
      rw [← entryValid.clean clean,Coin.asUnspent_eq_none]
      exact spent kept
  have noThrow : (!possible_overwrite && !it.coin.IsSpent) = false := by
    cases possible_overwrite <;> simp [itSpent]
  refine ⟨{ cache with cacheCoins := cache.cacheCoins.insert o ⟨coin,true,it.FRESH || (!possible_overwrite && !it.DIRTY)⟩ },
    by simp only [unspent,itDef,noThrow]; rfl,valid.insert ⟨?_,by simp,by simp [unspent]⟩,?_⟩
  · intro fresh
    rcases (by simpa using fresh : it.FRESH = true ∨ possible_overwrite = false ∧ it.DIRTY = false) with
      wasFresh | ⟨kept,clean⟩
    · exact itFresh wasFresh
    · exact itClean kept clean
  · simp only [overlay_insert,Coin.asUnspent,unspent]
    rfl

/-- `Uncache` drops only an entry that holds the coin below it: the cache stays
    valid and reports the same coins. -/
theorem CCoinsViewCache.Uncache_spec {cache : CCoinsViewCache} {below : CoinMap}
    (valid : ValidOver cache.cacheCoins below) (o : COutPoint) :
    ValidOver (cache.Uncache o).cacheCoins below ∧ overlay (cache.Uncache o).cacheCoins below = overlay cache.cacheCoins below := by
  unfold CCoinsViewCache.Uncache
  cases cached : cache.cacheCoins.lookup o with
  | none => exact ⟨valid,rfl⟩
  | some entry =>
    dsimp only
    cases clean : (!entry.DIRTY && !entry.FRESH)
    · exact ⟨valid,by simp⟩
    · have notDirty : entry.DIRTY = false := by simpa using (Bool.and_eq_true_iff.mp clean).1
      refine ⟨by simpa [clean] using valid.erase o,?_⟩
      simp only [if_true]
      rw [overlay_erase,Function.update_eq_self_iff,overlay_apply,cached,entryView_some]
      exact ((valid o entry cached).clean notDirty).symm

/-! ## Stacks -/

/-- The coins a stack of caches reports. -/
def stackView {σ : Type} (view : σ → CoinMap) : (n : Nat) → Layers σ n → CoinMap
  | 0, b => view b
  | n + 1, s => overlay s.1.cacheCoins (stackView view n s.2)

/-- Every layer of the stack is valid over the stack below it, and the base
    satisfies `Inv`. -/
def stackInv {σ : Type} (Inv : σ → Prop) (view : σ → CoinMap) : (n : Nat) → Layers σ n → Prop
  | 0, b => Inv b
  | n + 1, s => ValidOver s.1.cacheCoins (stackView view n s.2) ∧ stackInv Inv view n s.2

/-- A valid stack of caches over a lawful base is a lawful base. -/
theorem stackMethods_coinsBase {σ : Type} {base : CCoinsViewMethods σ} {Inv : σ → Prop} {view : σ → CoinMap}
    (lawful : CoinsBase base Inv view) : ∀ n, CoinsBase (stackMethods base n) (stackInv Inv view n) (stackView view n)
  | 0 => lawful
  | n + 1 => CCoinsViewCache.coinsBase (stackMethods_coinsBase lawful n)

end BitcoinPrivate
