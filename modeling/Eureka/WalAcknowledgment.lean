import Mathlib
import Eureka.StreamIngest

/-! Acknowledgment and the log. `append_wal_entry` reports a file that does not open, and
`append_raw_batch` drops the report: the row group and the response are the same either way. -/
namespace Eureka.Service
open WordBytes Apex Simdjson LineFraming Ingest

end Eureka.Service
