/-!
# The vocabulary of completion

The fixed words and phrases that are offered, in the order of the popup.
-/

namespace SiddhiEditor.Vocabulary

/-- What starts a statement. -/
def topLevel : List String :=
  ["define stream", "define table", "define window", "define trigger", "define function",
    "define aggregation", "from", "partition with", "@app:name", "@info"]

/-- What may follow the input of a query. -/
def afterQueryInput : List String :=
  ["select", "output", "insert into", "delete", "update", "update or insert into", "return"]

/-- What starts the output of a query. -/
def queryOutputStart : List String :=
  ["insert", "insert into", "delete", "update", "update or insert into", "return"]

/-- The events an output may consist of. -/
def eventTypes : List String :=
  ["all events", "all raw events", "current events", "expired events", "expired raw events"]

/-- The word before the stream that is inserted into. -/
def into : String := "into"

/-- The windows of a stream. -/
def windowFunctions : List String :=
  ["length", "lengthBatch", "time", "timeBatch", "timeLength", "externalTime",
    "externalTimeBatch", "sort", "frequent", "lossyFrequent", "cron", "session"]

/-- What may follow a stream in the input of a query. -/
def afterStream : List String := ["#window.", "as", "join", "unidirectional"]

/-- What may follow the attributes that a query selects. -/
def querySection : List String := ["as", "group by", "having", "order by", "limit", "offset"]

/-- What may follow `output`. -/
def rateTypes : List String := ["all", "last", "first", "snapshot", "every"]

/-- The units of a time span. -/
def timeUnits : List String :=
  ["millisec", "sec", "min", "hour", "day", "week", "month", "year"]

/-- What may follow the table that is deleted from or updated. -/
def afterTable : List String := ["for", "on"]

end SiddhiEditor.Vocabulary
