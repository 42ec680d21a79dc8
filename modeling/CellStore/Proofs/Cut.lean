import CellStore.Proofs.Answers

namespace CellStore.Run

/-- The first run gives the cells of the second one as far as it gets, and fails only with certain
errors. -/
inductive Cut (faults : ReadError → Prop) : Run → Run → Prop
  | failed {error : ReadError} (fault : faults error) (run : Run) : Cut faults (.failed error) run
  | finished : Cut faults .finished .finished
  | cell {stored stored' : StoredCell} {rest rest' : Unit → Run} :
    stored.cell = stored'.cell → Cut faults (rest ()) (rest' ()) →
      Cut faults (.cell stored rest) (.cell stored' rest')

variable {faults : ReadError → Prop} {early whole : Run} {error : ReadError}

namespace Cut

variable (cut : Cut faults early whole)

include cut

end Cut

end CellStore.Run
